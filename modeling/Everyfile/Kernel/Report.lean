import Everyfile.Kernel.MountInfo
import Everyfile.Kernel.Probe

/-!
# The path reported for a file

One hit of a probe on a file: `pre_handler_common` keeps the low bytes of the file's device and its path in its
filesystem, `post_handler_common` looks up the first partition with these bytes and puts its mount point before the
path. With a partition list filled from mount entries this is the first entry that is not special and agrees with the
device in the low bytes (`report_load`).

- The filter of special directories sees mount points only: what it lets through is special exactly for special paths
  on the root mount (`filter_exact_iff`).
- The directory a mount shows of its filesystem has no part in the path, and devices are told apart by two bytes: the
  path is one of the file itself where neither matters (`path_true_iff`).
-/

namespace Everyfile.Kernel

/-! ## Paths -/

/-- The full path of `path` on a filesystem mounted at `mp`. -/
def join (mp path : List Byte) : List Byte := if mp = bytes "/" then path else mp ++ path

def firstComponent (q : List Byte) : List Byte := q.tail.takeWhile (· ≠ 47)

/-- Lying under a directory of the root is a matter of the first component. -/
theorem under_iff_firstComponent {q w : List Byte} (hq : q.head? = some 47) (hw : 47 ∉ w) :
    Under (47 :: w) q ↔ firstComponent q = w := by
  obtain ⟨b, t, rfl⟩ : ∃ b t, q = b :: t := by
    cases q with
    | nil => cases hq
    | cons b t => exact ⟨b, t, rfl⟩
  obtain rfl : b = 47 := by simpa using hq
  have hself : ∀ {w : List Byte}, 47 ∉ w → w.takeWhile (· ≠ 47) = w := by
    intro w hw
    rw [List.takeWhile_eq_self_iff]
    intro b hb
    rw [decide_eq_true_eq]
    rintro rfl
    exact hw hb
  have hprefix : 47 :: w ++ bytes "/" <+: 47 :: t ↔ ∃ s, t = w ++ 47 :: s := by
    rw [List.cons_append, List.cons_prefix_cons, and_iff_right rfl]
    constructor
    · rintro ⟨s, rfl⟩
      exact ⟨s, by simp [bytes]⟩
    · rintro ⟨s, rfl⟩
      exact ⟨s, by simp [bytes]⟩
  rw [Under, hprefix, firstComponent, List.tail_cons, List.cons_inj_right]
  constructor
  · rintro (rfl | ⟨s, rfl⟩)
    · exact hself hw
    · rw [Scanf.takeWhile_append_stop (by simp), hself hw]
  · intro h
    by_cases hmem : 47 ∈ t
    · obtain ⟨u, s, rfl, hu⟩ := List.eq_append_cons_of_mem hmem
      rw [Scanf.takeWhile_append_stop (by simp), hself hu] at h
      exact .inr ⟨s, by rw [h]⟩
    · rw [hself hmem] at h
      exact .inl h

theorem firstComponent_append {mp path : List Byte} (hmp : mp.head? = some 47) (hp : path.head? = some 47) :
    firstComponent (mp ++ path) = firstComponent mp := by
  obtain ⟨m, rfl⟩ : ∃ m, mp = 47 :: m := List.head?_eq_some_iff.mp hmp
  obtain ⟨p, rfl⟩ : ∃ p, path = 47 :: p := List.head?_eq_some_iff.mp hp
  simp only [firstComponent, List.cons_append, List.tail_cons]
  exact Scanf.takeWhile_append_stop (by simp) m p

/-- Being special is a matter of the first component. -/
theorem special_iff {q : List Byte} (hq : q.head? = some 47) :
    Special q ↔ 47 :: firstComponent q ∈ specialDirs := by
  have hdirs : ∀ d ∈ specialDirs, ∃ w, d = 47 :: w ∧ 47 ∉ w := by
    intro d hd
    exact ⟨d.tail, by revert d; decide, by revert d; decide⟩
  constructor
  · rintro ⟨d, hd, hu⟩
    obtain ⟨w, rfl, hw⟩ := hdirs d hd
    rwa [(under_iff_firstComponent hq hw).mp hu]
  · intro h
    obtain ⟨w, hw, hnot⟩ := hdirs _ h
    refine ⟨_, h, ?_⟩
    rw [hw, under_iff_firstComponent hq hnot]
    exact (List.cons.inj hw).2

theorem special_append_iff {mp path : List Byte} (hmp : mp.head? = some 47) (hp : path.head? = some 47) :
    Special (mp ++ path) ↔ Special mp := by
  rw [special_iff hmp, special_iff (by simp [hmp]), firstComponent_append hmp hp]

/-! ## One hit of a probe -/

/-- A call of the probed function on the file at `path` of the filesystem on `dev`: the pre step, then the post step. -/
def report (parts : List KrpPartition) (dev : Nat) (path : List Byte) (success alloc : Bool) : Outcome :=
  postHandlerCommon parts (preHandlerCommon (some ⟨some dev, some path⟩) true).1 success alloc

/-- The partitions after the loop of `parse_mounts_info` has read the entries, with every allocation succeeding. -/
def load (es : List MountEntry) : List KrpPartition := es.foldl (addPartition true) []

/-- The bytes kept of the device are those of the entry. -/
def MountEntry.agrees (dev : Nat) (e : MountEntry) : Bool :=
  e.major.toUInt8 = UInt8.ofNat (devMajor dev) ∧ e.minor.toUInt8 = UInt8.ofNat (devMinor dev)

/-- The entry that `get_root` finds: the first one that is not special and has the bytes kept of the device. -/
def found (es : List MountEntry) (dev : Nat) : Option MountEntry :=
  (es.filter (!isSpecialMp ·.mp)).find? (MountEntry.agrees dev)

theorem getRoot_load (es : List MountEntry) (dev : Nat) :
    getRoot (load es) (UInt8.ofNat (devMajor dev)) (UInt8.ofNat (devMinor dev)) =
      ((found es dev).map MountEntry.mp).getD [] := by
  have hfind : (load es).find? (fun part => part.major = UInt8.ofNat (devMajor dev) ∧
      part.minor = UInt8.ofNat (devMinor dev)) = (found es dev).map MountEntry.partition := by
    rw [load, foldl_addPartition, List.nil_append, List.find?_map]
    rfl
  rw [getRoot, hfind]
  cases found es dev <;> rfl

theorem notSpecial_of_found {es : List MountEntry} {dev : Nat} {e : MountEntry} (h : found es dev = some e) :
    e ∈ es ∧ isSpecialMp e.mp = false ∧ e.agrees dev = true := by
  have hmem := List.mem_filter.mp (List.mem_of_find?_eq_some h)
  exact ⟨hmem.1, by simpa using hmem.2, List.find?_some h⟩

/-- **What a hit reports**: the path under the mount point of the entry found, where there is one. -/
theorem report_load (es : List MountEntry) (dev : Nat) (path : List Byte) (success alloc : Bool) :
    report (load es) dev path success alloc =
      match found es dev with
      | some e => if success && alloc then .event (flPath e.mp path) else .dropped
      | none => .dropped := by
  have hpost : report (load es) dev path success alloc =
      if success then
        let root := ((found es dev).map MountEntry.mp).getD []
        if root = [] then .dropped
        else if isSpecialMp root then .dropped
        else if alloc then .event (flPath root path) else .dropped
      else .dropped := by
    rw [← getRoot_load]
    rfl
  rw [hpost]
  cases hf : found es dev with
  | none => simp
  | some e =>
    obtain ⟨-, hns, -⟩ := notSpecial_of_found hf
    have hne : e.mp ≠ [] := by
      intro hnil
      rw [hnil] at hns
      cases hns
    cases success <;> cases alloc <;> simp [hne, hns]

theorem report_eq_event_iff {es : List MountEntry} {dev : Nat} {path q : List Byte} {success alloc : Bool} :
    report (load es) dev path success alloc = .event q ↔
      ∃ e, found es dev = some e ∧ success = true ∧ alloc = true ∧ q = flPath e.mp path := by
  rw [report_load]
  cases found es dev with
  | none => simp
  | some e => cases success <;> cases alloc <;> simp [eq_comm]

/-! ## The filter of special directories -/

/-- The entry is for the device. -/
def MountEntry.on (dev : Nat) (e : MountEntry) : Prop := e.major.toNat = devMajor dev ∧ e.minor.toNat = devMinor dev

theorem MountEntry.on.agrees {dev : Nat} {e : MountEntry} (h : e.on dev) : e.agrees dev = true := by
  simp only [MountEntry.agrees, ← h.1, ← h.2, decide_eq_true_eq]
  exact ⟨rfl, rfl⟩

/-- What the filter is for: no path in a special directory is reported, and a file whose full path lies elsewhere is. -/
structure FilterExact (es : List MountEntry) (dev : Nat) (path : List Byte) : Prop where
  no_leak : ∀ success alloc q, report (load es) dev path success alloc = .event q → ¬Special q
  no_drop : ∀ e ∈ es, e.on dev → ¬Special (join e.mp path) → ∃ q, report (load es) dev path true true = .event q

/-- An entry for the device that is not special makes `get_root` find one. -/
theorem exists_found {es : List MountEntry} {dev : Nat} {e : MountEntry} (he : e ∈ es) (hon : e.on dev)
    (hns : isSpecialMp e.mp = false) : ∃ e', found es dev = some e' := by
  rw [← Option.isSome_iff_exists, found, List.find?_isSome]
  exact ⟨e, List.mem_filter.mpr ⟨he, by simp [hns]⟩, hon.agrees⟩

theorem special_flPath_iff {mp path : List Byte} (hmp : mp.head? = some 47) (hp : path.head? = some 47)
    (hns : isSpecialMp mp = false) : Special (flPath mp path) ↔ mountedAt mp (bytes "/") = true ∧ Special path := by
  have hmps : ¬Special mp := fun h => by simp [(isSpecialMp_iff hmp).mpr h] at hns
  unfold flPath
  split
  next hroot => simp [hroot]
  next hroot => simp [hroot, special_append_iff hmp hp, hmps]

/-- **When the filter is exact**: unless the file is found on the root mount and its path there is special. -/
theorem filter_exact_iff {es : List MountEntry} {dev : Nat} {path : List Byte}
    (hmp : ∀ e ∈ es, e.mp.head? = some 47) (hpath : path.head? = some 47) :
    FilterExact es dev path ↔ ¬∃ e, found es dev = some e ∧ mountedAt e.mp (bytes "/") = true ∧ Special path := by
  constructor
  · rintro h ⟨e, hf, hroot, hs⟩
    obtain ⟨he, hns, -⟩ := notSpecial_of_found hf
    refine h.no_leak true true _ (report_eq_event_iff.mpr ⟨e, hf, rfl, rfl, rfl⟩) ?_
    exact (special_flPath_iff (hmp e he) hpath hns).mpr ⟨hroot, hs⟩
  · intro h
    constructor
    · intro success alloc q hq hs
      obtain ⟨e, hf, -, -, rfl⟩ := report_eq_event_iff.mp hq
      obtain ⟨he, hns, -⟩ := notSpecial_of_found hf
      exact h ⟨e, hf, (special_flPath_iff (hmp e he) hpath hns).mp hs⟩
    · intro e he hon hs
      have hns : isSpecialMp e.mp = false := by
        by_contra hspec
        have hspec := (isSpecialMp_iff (hmp e he)).mp (by simpa using hspec)
        have hne : e.mp ≠ bytes "/" := by
          intro heq
          rw [heq] at hspec
          exact absurd hspec (by decide)
        rw [join, if_neg hne, special_append_iff (hmp e he) hpath] at hs
        exact hs hspec
      obtain ⟨e', hf⟩ := exists_found he hon hns
      exact ⟨_, report_eq_event_iff.mpr ⟨e', hf, rfl, rfl, rfl⟩⟩

/-- The root filesystem on device 8:1. -/
def rootEntry : MountEntry := ⟨8, 1, bytes "/"⟩

/-- The daemon's own database on the root filesystem is reported. -/
theorem database_reported : report (load [rootEntry]) 8388609 (bytes "/var/ef.db") true true =
    .event (bytes "/var/ef.db") ∧ ¬FilterExact [rootEntry] 8388609 (bytes "/var/ef.db") := by
  refine ⟨by decide, fun h => ?_⟩
  exact h.no_leak true true (bytes "/var/ef.db") (by decide) (by decide)

/-- A name that only begins like a special directory. -/
theorem filter_exact_variable : (∀ e ∈ [rootEntry], e.mp.head? = some 47) ∧ (bytes "/variable").head? = some 47 ∧
    FilterExact [rootEntry] 8388609 (bytes "/variable") := by
  refine ⟨by decide, by decide, (filter_exact_iff (by decide) (by decide)).mpr ?_⟩
  rintro ⟨e, -, -, h⟩
  exact absurd h (by decide)

/-! ## The path of the file itself -/

/-- What is left of `path` below the directory `root`, where it lies in it. -/
def below (root path : List Byte) : Option (List Byte) :=
  if root = bytes "/" then some path
  else if Under root path then some (path.drop root.length)
  else none

/-- Where the directory `root` of a filesystem is seen if all of the filesystem is mounted at `mp`. -/
def place (mp root : List Byte) : List Byte :=
  if root = bytes "/" then (if mountedAt mp (bytes "/") then bytes "/" else mp) else flPath mp root

namespace MountRecord

/-- The record is for the device. -/
def on (dev : Nat) (r : MountRecord) : Prop := r.major = devMajor dev ∧ r.minor = devMinor dev

instance (dev : Nat) (r : MountRecord) : Decidable (r.on dev) := inferInstanceAs (Decidable (_ ∧ _))

/-- The low bytes of the device are those of the record. -/
def agrees (dev : Nat) (r : MountRecord) : Bool :=
  r.major % 256 = devMajor dev % 256 ∧ r.minor % 256 = devMinor dev % 256

/-- `q` is a path of the file at `path` on `dev` by this mount. -/
def Names (dev : Nat) (path q : List Byte) (r : MountRecord) : Prop :=
  isSpecialMp r.mountPoint = false ∧ r.on dev ∧ ∃ s, below r.root path = some s ∧ q = join r.mountPoint s

/-- The mount shows the file at `path` on `dev`. -/
def Shows (dev : Nat) (path : List Byte) (r : MountRecord) : Prop :=
  isSpecialMp r.mountPoint = false ∧ r.on dev ∧ (r.root = bytes "/" ∨ Under r.root path)

instance (dev : Nat) (path : List Byte) (r : MountRecord) : Decidable (r.Shows dev path) :=
  inferInstanceAs (Decidable (_ ∧ _ ∧ _))

end MountRecord

/-- What the path of an event is asked to be: a path of the file by some mount of its device; and a file that some mount
shows is reported. -/
structure PathTrue (rs : List MountRecord) (parts : List KrpPartition) (dev : Nat) (path : List Byte) : Prop where
  of_file : ∀ success alloc q, report parts dev path success alloc = .event q → ∃ r ∈ rs, r.Names dev path q
  reported : (∃ r ∈ rs, ∃ q, r.Names dev path q) → ∃ q, report parts dev path true true = .event q

/-- The record whose mount point is put before the path. -/
def firstRecord (rs : List MountRecord) (dev : Nat) : Option MountRecord :=
  (rs.filter (!isSpecialMp ·.mountPoint)).find? (MountRecord.agrees dev)

theorem agrees_entry (dev : Nat) (r : MountRecord) : r.entry.agrees dev = r.agrees dev := by
  have hbyte : ∀ n m : Nat, (UInt32.ofInt n).toUInt8 = UInt8.ofNat m ↔ n % 256 = m % 256 := by
    intro n m
    rw [← UInt8.toNat_inj, UInt32.toNat_toUInt8, UInt8.toNat_ofNat', UInt32.ofInt, UInt32.toNat_ofNat']
    omega
  simp [MountEntry.agrees, MountRecord.agrees, MountRecord.entry, hbyte]

/-- The entries of plain records are found as the records are. -/
theorem found_entries {rs : List MountRecord} (hrs : ∀ r ∈ rs, r.Plain) (dev : Nat) :
    (found (rs.map MountRecord.entry) dev).map MountEntry.mp = (firstRecord rs dev).map MountRecord.mountPoint := by
  have hfilter : (rs.map MountRecord.entry).filter (!isSpecialMp ·.mp) =
      (rs.filter (!isSpecialMp ·.mountPoint)).map MountRecord.entry := by
    rw [List.filter_map]
    refine congrArg _ (List.filter_congr fun r hr => ?_)
    exact congrArg (!isSpecialMp ·) (hrs r hr).read_eq
  have hagrees : MountEntry.agrees dev ∘ MountRecord.entry = MountRecord.agrees dev :=
    funext (agrees_entry dev)
  rw [found, hfilter, List.find?_map, hagrees, ← firstRecord, Option.map_map]
  refine Option.map_congr fun r hr => ?_
  exact (hrs r (List.mem_filter.mp (List.mem_of_find?_eq_some hr)).1).read_eq

/-- What the partitions read from the text report. -/
theorem report_records {rs : List MountRecord} (hrs : ∀ r ∈ rs, r.Plain) {dev : Nat} {path q : List Byte}
    {success alloc : Bool} : report (load (rs.map MountRecord.entry)) dev path success alloc = .event q ↔
      ∃ r, firstRecord rs dev = some r ∧ success = true ∧ alloc = true ∧ q = flPath r.mountPoint path := by
  have hfound := found_entries hrs dev
  rw [report_eq_event_iff]
  constructor
  · rintro ⟨e, he, hs, ha, rfl⟩
    rw [he] at hfound
    obtain ⟨r, hr, hmp⟩ := Option.map_eq_some_iff.mp hfound.symm
    exact ⟨r, hr, hs, ha, by rw [hmp]⟩
  · rintro ⟨r, hr, hs, ha, rfl⟩
    rw [hr] at hfound
    obtain ⟨e, he, hmp⟩ := Option.map_eq_some_iff.mp hfound
    exact ⟨e, he, hs, ha, by rw [hmp]⟩

theorem MountRecord.names_iff_shows {r : MountRecord} {dev : Nat} {path : List Byte} :
    (∃ q, r.Names dev path q) ↔ r.Shows dev path := by
  simp only [Names, Shows, below]
  split
  next h => simp [h]
  next h =>
    by_cases hu : Under r.root path
    · simp [hu]
    · simp [h, hu]

/-- A mount that shows the file is found, if not always as the first. -/
theorem firstRecord_of_shows {rs : List MountRecord} {dev : Nat} {path : List Byte} {r : MountRecord} (hr : r ∈ rs)
    (h : r.Shows dev path) : ∃ r', firstRecord rs dev = some r' := by
  obtain ⟨hns, ⟨hmaj, hmin⟩, -⟩ := h
  rw [← Option.isSome_iff_exists, firstRecord, List.find?_isSome]
  exact ⟨r, List.mem_filter.mpr ⟨hr, by simp [hns]⟩, by simp [MountRecord.agrees, hmaj, hmin]⟩

/-- The path put together from `mp` is the file's path by the mount `r` exactly if `r` is mounted where its directory
would be seen under `mp`. -/
theorem MountRecord.names_flPath_iff {r : MountRecord} {dev : Nat} {mp path : List Byte} (hroot : r.root ≠ [])
    (hmount : r.mountPoint ≠ []) (hmp : mp ≠ []) :
    r.Names dev path (flPath mp path) ↔ r.Shows dev path ∧ r.mountPoint = place mp r.root := by
  have hslash : mountedAt mp (bytes "/") = false → mp ≠ bytes "/" := by
    rintro h rfl
    cases h
  simp only [Names, Shows, and_assoc]
  refine and_congr_right fun _ => and_congr_right fun _ => ?_
  unfold below place flPath join
  by_cases h : r.root = bytes "/"
  · -- all of the filesystem is mounted at `r`
    by_cases hm : mountedAt mp (bytes "/") = true
    · by_cases hr : r.mountPoint = bytes "/" <;> simp [h, hm, hr, hmount]
    · have hne := hslash (by simpa using hm)
      by_cases hr : r.mountPoint = bytes "/"
      · simp [h, hm, hr, hmp, Ne.symm hne]
      · simp [h, hm, hr, eq_comm]
  · by_cases hu : Under r.root path
    · obtain ⟨s, rfl⟩ : ∃ s, path = r.root ++ s := by
        rcases hu with rfl | ⟨s, rfl⟩
        · exact ⟨[], by simp⟩
        · exact ⟨bytes "/" ++ s, by simp⟩
      by_cases hm : mountedAt mp (bytes "/") = true
      · by_cases hr : r.mountPoint = bytes "/"
        · simp [h, hm, hr, hu, hroot, Ne.symm h]
        · simp [h, hm, hr, hu, eq_comm]
      · by_cases hr : r.mountPoint = bytes "/"
        · have hlen : bytes "/" ≠ mp ++ r.root := by
            intro heq
            have := congrArg List.length heq
            have := List.length_pos_iff.mpr hmp
            have := List.length_pos_iff.mpr hroot
            simp [bytes] at *
            omega
          simp [h, hm, hr, hu, hmp, hlen, ← List.append_assoc]
        · simp [h, hm, hr, hu, ← List.append_assoc, eq_comm]
    · simp [h, hu]

/-- **When the path is the file's own**: some mount of exactly the device shows the file, at the place where the mount
looked up by two bytes would have it if it showed all of its filesystem. -/
theorem path_true_iff {rs : List MountRecord} (hrs : ∀ r ∈ rs, r.Plain) (dev : Nat) (path : List Byte) :
    ∃ parts, parseMountsInfo (fun _ => true) (some (mountinfo rs)) [] = some parts ∧
      (PathTrue rs parts dev path ↔ ∀ r, firstRecord rs dev = some r →
        ∃ r' ∈ rs, r'.Shows dev path ∧ r'.mountPoint = place r.mountPoint r'.root) := by
  have hload : parseMountsInfo (fun _ => true) (some (mountinfo rs)) [] = some (load (rs.map MountRecord.entry)) := by
    rw [parse_mountinfo, allocated_true, load, foldl_addPartition]
  have hmount : ∀ r ∈ rs, r.mountPoint ≠ [] := by
    intro r hr hnil
    have := (hrs r hr).abs
    simp [hnil] at this
  have hroot : ∀ r : MountRecord, r.root ≠ [] := by
    intro r
    obtain ⟨b, hb, -⟩ := r.root_visible
    exact List.ne_nil_of_mem hb
  have hmem : ∀ {r}, firstRecord rs dev = some r → r ∈ rs := fun hr =>
    (List.mem_filter.mp (List.mem_of_find?_eq_some hr)).1
  refine ⟨_, hload, ?_⟩
  constructor
  · intro h r hr
    obtain ⟨r', hr', hn⟩ := h.of_file true true _ ((report_records hrs).mpr ⟨r, hr, rfl, rfl, rfl⟩)
    exact ⟨r', hr', (MountRecord.names_flPath_iff (hroot r') (hmount r' hr') (hmount r (hmem hr))).mp hn⟩
  · intro h
    constructor
    · intro success alloc q hq
      obtain ⟨r, hr, -, -, rfl⟩ := (report_records hrs).mp hq
      obtain ⟨r', hr', hshow⟩ := h r hr
      exact ⟨r', hr', (MountRecord.names_flPath_iff (hroot r') (hmount r' hr') (hmount r (hmem hr))).mpr hshow⟩
    · rintro ⟨r, hr, hn⟩
      obtain ⟨r', hr'⟩ := firstRecord_of_shows hr (MountRecord.names_iff_shows.mp hn)
      exact ⟨_, (report_records hrs).mpr ⟨r', hr', rfl, rfl, rfl⟩⟩

/-- The directory `/home` of the filesystem on device 8:1, mounted at `/export`. -/
def exportRecord : MountRecord where
  id := 37
  parent := 36
  major := 8
  minor := 1
  root := bytes "/home"
  mountPoint := bytes "/export"
  options := bytes "rw"
  optional := [bytes "shared:1"]
  fsType := bytes "ext4"
  source := bytes "/dev/sda1"
  superOptions := bytes "rw"
  nulFree := by decide
  root_visible := by decide

/-- Under a mount of `/home` the file `/home/x` is `/export/x`; what is reported is the path with both directories. -/
theorem bind_mount_reported :
    parseMountsInfo (fun _ => true) (some (mountinfo [exportRecord])) [] = some [⟨8, 1, bytes "/export"⟩] ∧
    report [⟨8, 1, bytes "/export"⟩] 8388609 (bytes "/home/x") true true = .event (bytes "/export/home/x") ∧
    ¬PathTrue [exportRecord] [⟨8, 1, bytes "/export"⟩] 8388609 (bytes "/home/x") := by
  refine ⟨?_, by decide, fun h => ?_⟩
  · rw [parse_mountinfo]
    decide
  · obtain ⟨r, hr, -, -, s, hs, hq⟩ := h.of_file true true (bytes "/export/home/x") (by decide)
    obtain rfl := List.mem_singleton.mp hr
    obtain rfl : bytes "/x" = s := Option.some_inj.mp hs
    exact absurd hq (by decide)

/-- All of the filesystem on device 8:1, mounted at `/mnt`. -/
def wholeRecord : MountRecord where
  id := 38
  parent := 36
  major := 8
  minor := 1
  root := bytes "/"
  mountPoint := bytes "/mnt"
  options := bytes "rw"
  optional := []
  fsType := bytes "ext4"
  source := bytes "/dev/sda1"
  superOptions := bytes "rw"
  nulFree := by decide
  root_visible := slash_visible

theorem wholeRecord_plain : ∀ r ∈ [wholeRecord], r.Plain := by
  simp only [List.mem_singleton, forall_eq]
  exact ⟨by decide +kernel, rfl, by decide +kernel, by decide, by decide, by decide⟩

theorem path_true_whole : (∀ r ∈ [wholeRecord], r.Plain) ∧
    ∃ parts, parseMountsInfo (fun _ => true) (some (mountinfo [wholeRecord])) [] = some parts ∧
      PathTrue [wholeRecord] parts 8388609 (bytes "/x") := by
  obtain ⟨parts, hparts, hiff⟩ := path_true_iff wholeRecord_plain 8388609 (bytes "/x")
  refine ⟨wholeRecord_plain, parts, hparts, hiff.mpr fun r hr => ?_⟩
  obtain rfl : wholeRecord = r := Option.some_inj.mp hr
  exact ⟨wholeRecord, by simp, by decide, by decide⟩

end Everyfile.Kernel
