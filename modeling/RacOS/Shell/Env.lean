import Mathlib.Data.Char
import Mathlib.Data.List.Lex
import Mathlib.Data.List.TakeWhile
import Mathlib.Order.Lattice
import RacOS.Shell.Ast

/-!
# The environment of the shell

The model of `Env` of `shell/src/expand.rs`: variables, parameters and aliases.  The aliases are
kept sorted by name, so that they can be found by binary search.
-/

namespace RacOS.Shell

/-- The aliases with their replacements, sorted by name. -/
structure AliasTable where
  entries : List (Text × Text)
  sorted : entries.Pairwise fun a b => a.1 < b.1

namespace AliasTable

/-- The aliases from the place on at which `binary_search_by` ends. -/
def after (t : AliasTable) (name : Text) : List (Text × Text) :=
  t.entries.dropWhile fun entry => entry.1 < name

def lookupAlias (t : AliasTable) (name : Text) : Option Text :=
  match t.after name with
  | [] => none
  | entry :: _ => if entry.1 = name then some entry.2 else none

/-- The search finds the aliases that there are. -/
theorem lookupAlias_eq_some_iff {t : AliasTable} {name value : Text} :
    t.lookupAlias name = some value ↔ (name, value) ∈ t.entries := by
  have hmem : (name, value) ∈ t.entries ↔ (name, value) ∈ t.after name := by
    rw [after, ← List.takeWhile_append_dropWhile (p := fun entry => entry.1 < name)
      (l := t.entries), List.mem_append, List.takeWhile_append_dropWhile]
    refine or_iff_right fun h => ?_
    exact absurd (List.mem_takeWhile_imp h) (by simp)
  have hsorted : (t.after name).Pairwise fun a b => a.1 < b.1 :=
    t.sorted.sublist (List.dropWhile_sublist _)
  have hhead : ∀ hne : t.after name ≠ [], ¬((t.after name).head hne).1 < name := fun hne h =>
    absurd (decide_eq_true h) (Bool.eq_false_iff.mp (List.head_dropWhile_not _ hne))
  rw [hmem, lookupAlias]
  cases hafter : t.after name with
  | nil => simp
  | cons entry rest =>
    simp only [hafter, List.head_cons] at hhead hsorted
    have hrest := (List.pairwise_cons.mp hsorted).1
    have hfirst := hhead (List.cons_ne_nil _ _)
    dsimp only
    constructor
    · intro h
      split at h
      · rename_i heq
        cases h
        rw [← heq]
        exact List.mem_cons_self
      · cases h
    · intro h
      rcases List.mem_cons.mp h with rfl | h
      · exact if_pos rfl
      · exact absurd (hrest _ h) hfirst

end AliasTable

structure Env where
  vars : List (Text × Text)
  lastStatus : Int32
  shellPid : Int32
  positional : List Text
  arg0 : Text
  aliases : AliasTable

namespace Env

def new (pid : Int32) : Env where
  vars := []
  lastStatus := 0
  shellPid := pid
  positional := []
  arg0 := "racsh".toList
  aliases := ⟨[], .nil⟩

/-- The value of a variable, which was set last under this name. -/
def get (env : Env) (name : Text) : Option Text :=
  (env.vars.reverse.find? fun entry => entry.1 = name).map Prod.snd

end Env

/-! ## Splitting at blanks -/

/-- The characters of the Unicode property `White_Space`. -/
def isWhitespace (c : Char) : Bool :=
  (0x09 ≤ c.toNat && c.toNat ≤ 0x0D) || c.toNat ∈ [0x20, 0x85, 0xA0, 0x1680] ||
    (0x2000 ≤ c.toNat && c.toNat ≤ 0x200A) || c.toNat ∈ [0x2028, 0x2029, 0x202F, 0x205F, 0x3000]

def splitWhitespace (s : Text) : List Text :=
  (s.splitOnP isWhitespace).filter fun word => !word.isEmpty

end RacOS.Shell
