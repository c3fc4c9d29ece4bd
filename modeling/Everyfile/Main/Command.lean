import Everyfile.Db.Fuzzy
import Everyfile.Db.Print
import Everyfile.Lib.GetOpt

/-!
# The command line

`main` calls `getopt_long` once and switches on what it returns. The name to search for is not taken from `optarg` but
from `argv[optind-1]`, which is the option's own word where the argument was attached to it: `-eNAME` and
`--exact=NAME` search for `-eNAME` and `--exact=NAME` (`asks_iff`), and find nothing in a table of paths.
-/

namespace Everyfile.Main

open Db (Sqlite Table)

/-- `"e:f:ih"`. -/
def letters : List GetOpt.Letter := [⟨101, true⟩, ⟨102, true⟩, ⟨105, false⟩, ⟨104, false⟩]

def longOptions : List GetOpt.Long :=
  [⟨bytes "exact", true, 101⟩, ⟨bytes "fuzzy", true, 102⟩, ⟨bytes "init", false, 105⟩, ⟨bytes "help", false, 104⟩]

/-- The cases of the switch. -/
inductive Command
  | exact (qry : List Byte)
  | fuzzy (qry : List Byte)
  | init | help | other
  deriving DecidableEq, Repr

/-- The case that `main` comes to. -/
def command (argv : List (List Byte)) : Command :=
  match GetOpt.call letters longOptions argv with
  | .found 101 _ optind => .exact (argv.getD (optind - 1) [])
  | .found 102 _ optind => .fuzzy (argv.getD (optind - 1) [])
  | .found 105 _ _ => .init
  | .found 104 _ _ => .help
  | _ => .other

/-- The lines `main` prints; none are left where the text of a query does not fit, a constructor throws or a row cannot
be read. -/
def printed (E : Sqlite) (t : Table) : Command → Option (List (List Byte))
  | .exact qry => ((Db.EfDb.qryExact E qry t).bind fun r => r.2.bind Db.printRes).map (qry :: ·)
  | .fuzzy qry => (Db.EfDb.qryNoExact E qry t).bind fun r => r.2.bind Db.printRes
  | .init => some []
  | .help => some [bytes "--exact[-e] filename: search filename exactly.",
      bytes "--fuzzy[-f] filename: search filename fuzzy.",
      bytes "--init: init ef_db. This step would cost a long time."]
  | .other => some [bytes "error option."]

/-- The search that the user has asked for: that of the option, for its argument. -/
def asked (argv : List (List Byte)) : Option Command :=
  match GetOpt.call letters longOptions argv with
  | .found 101 (some a) _ => some (.exact a)
  | .found 102 (some a) _ => some (.fuzzy a)
  | _ => none

variable {argv : List (List Byte)} {c : Command} {a q : List Byte}

/-- A search that was asked for comes from an option with an argument. -/
theorem asked_found (h : asked argv = some c) : ∃ (search : List Byte → Command) (a : List Byte) (n : Nat),
    (∃ val, GetOpt.call letters longOptions argv = .found val (some a) n) ∧ (search = .exact ∨ search = .fuzzy) ∧
      c = search a ∧ command argv = search (argv.getD (n - 1) []) := by
  unfold asked at h
  split at h
  next a n hcall =>
    cases h
    exact ⟨.exact, a, n, ⟨_, hcall⟩, .inl rfl, rfl, by simp [command, hcall]⟩
  next a n hcall =>
    cases h
    exact ⟨.fuzzy, a, n, ⟨_, hcall⟩, .inr rfl, rfl, by simp [command, hcall]⟩
  next => cases h

/-- A word with a dash is no column. -/
theorem columnOf_dash {w : List Byte} (h : w.head? = some 45) : Db.columnOf w = none := by
  obtain ⟨w, rfl⟩ := List.head?_eq_some_iff.mp h
  simp [Db.columnOf, Db.lower, bytes]

/-- An exact search for a name that no row has. -/
theorem printed_exact_of_notMem {E : Sqlite} {t : Table} (hz : NulFree q) (hq : 34 ∉ q) (hc : Db.columnOf q = none)
    (hfit : (Db.EfDb.qryExactText q).length < 4096) (h : q ∉ t.names) : printed E t (.exact q) = some [q] := by
  have hnone : t.lookup q = none := Table.lookup_eq_none.mpr h
  rw [printed, Db.qryExact_eq hz hq hc hfit, Table.select_name, hnone]
  rfl

/-- **What is searched for**: the option's argument exactly if it was not attached to the option; else the option's own
word, and an exact search for it prints nothing but this word over any table of paths. -/
theorem asks_iff (h : asked argv = some c) : ∃ w, argv[GetOpt.place argv]? = some w ∧
    (command argv = c ↔ ¬GetOpt.Attached w) ∧
    (GetOpt.Attached w → command argv = .exact w ∨ command argv = .fuzzy w) ∧
    ∀ a E t, c = .exact a → GetOpt.Attached w → NulFree w → 34 ∉ w → (Db.EfDb.qryExactText w).length < 4096 →
      (∀ n ∈ Table.names t, n.head? = some 47) → printed E t (command argv) = some [w] := by
  obtain ⟨search, a, n, ⟨val, hcall⟩, hsearch, rfl, hcommand⟩ := asked_found h
  obtain ⟨w, hw, hdash, harg⟩ := GetOpt.found_arg hcall
  have hinj : ∀ p q, search p = search q → p = q := by
    rcases hsearch with rfl | rfl <;> intro p q heq <;> cases heq <;> rfl
  refine ⟨w, hw, ?_⟩
  by_cases hatt : GetOpt.Attached w
  · -- the last word used up is the option's own, which is longer than its argument
    rw [if_pos hatt] at harg
    obtain ⟨rfl, p, hp, rfl⟩ := harg
    have hword : command argv = search (p ++ a) := by
      rw [hcommand, Nat.add_sub_cancel, List.getD_eq_getElem?_getD, hw]
      rfl
    refine ⟨?_, fun _ => ?_, fun b E t hb _ hz hq hfit hnames => ?_⟩
    · simp only [hatt, not_true_eq_false, iff_false, hword]
      intro heq
      have hlen := congrArg List.length (hinj _ _ heq)
      have := List.length_pos_of_ne_nil hp
      rw [List.length_append] at hlen
      omega
    · rw [hword]
      rcases hsearch with rfl | rfl
      · exact .inl rfl
      · exact .inr rfl
    · have hexact : search (p ++ a) = .exact (p ++ a) := by
        rcases hsearch with rfl | rfl
        · rfl
        · cases hb
      rw [hword, hexact]
      apply printed_exact_of_notMem hz hq (columnOf_dash hdash) hfit
      intro hmem
      have hslash := hnames _ hmem
      rw [hdash] at hslash
      cases hslash
  · rw [if_neg hatt] at harg
    obtain ⟨rfl, hnext⟩ := harg
    have hword : command argv = search a := by
      rw [hcommand, Nat.add_sub_assoc (by omega), List.getD_eq_getElem?_getD, hnext]
      rfl
    exact ⟨iff_of_true hword hatt, fun hatt' => absurd hatt' hatt, fun _ _ _ _ hatt' => absurd hatt' hatt⟩

/-- `everyfile -e/etc` searches for `-e/etc`. -/
theorem asks_iff_attached : asked [bytes "everyfile", bytes "-e/etc"] = some (.exact (bytes "/etc")) ∧
    command [bytes "everyfile", bytes "-e/etc"] ≠ .exact (bytes "/etc") ∧
    ∀ E t, (∀ n ∈ Table.names t, n.head? = some 47) →
      printed E t (command [bytes "everyfile", bytes "-e/etc"]) = some [bytes "-e/etc"] := by
  have hasked : asked [bytes "everyfile", bytes "-e/etc"] = some (.exact (bytes "/etc")) := rfl
  obtain ⟨w, hw, hiff, -, hprint⟩ := asks_iff hasked
  obtain rfl : bytes "-e/etc" = w := Option.some.inj hw
  have hatt : GetOpt.Attached (bytes "-e/etc") := by decide
  have hfit : (Db.EfDb.qryExactText (bytes "-e/etc")).length < 4096 := by decide
  refine ⟨hasked, fun heq => hiff.mp heq hatt, fun E t hnames => ?_⟩
  exact hprint _ E t rfl hatt (by decide) (by decide) hfit hnames

/-- An argument in a word of its own. -/
theorem command_exact (prog : List Byte) : command [prog, bytes "-e", q] = .exact q := rfl

theorem command_fuzzy (prog : List Byte) : command [prog, bytes "-f", q] = .fuzzy q := rfl

end Everyfile.Main
