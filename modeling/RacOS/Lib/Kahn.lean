import Mathlib.Data.Fintype.EquivFin
import Mathlib.Data.List.Nodup
import Mathlib.Logic.Relation
import Mathlib.Order.WellFounded

/-!
# Topological sorting by counting

Kahn's algorithm on the vertices below a bound: a vertex is ready when none of
the vertices it depends on is left, and taking a ready vertex lowers the count
of those that depend on it.  Ready vertices are kept on a stack.  The order
found lists every vertex after those it depends on, and leaves out exactly the
vertices from which a cycle can be reached.
-/

namespace Kahn

open Relation

/-- The counts of dependencies left, the stack of ready vertices with its top
first, and the order found so far. -/
structure State where
  inDegree : ℕ → ℕ
  ready : List ℕ
  order : List ℕ

/-- Lower the count of a vertex and make it ready when it reaches zero. -/
def relax (s : State) (next : ℕ) : State :=
  { s with
    inDegree := Function.update s.inDegree next (s.inDegree next - 1)
    ready := if s.inDegree next - 1 = 0 then next :: s.ready else s.ready }

/-- Take ready vertices until none is left, or `fuel` of them are taken. -/
def search (enables : ℕ → List ℕ) : (fuel : ℕ) → State → State
  | 0, s => s
  | fuel + 1, s =>
    match s.ready with
    | [] => s
    | idx :: rest =>
      search enables fuel
        ((enables idx).foldl relax
          { s with ready := rest, order := s.order ++ [idx] })

theorem foldl_relax {l : List ℕ} (hl : l.Nodup) (s : State) :
    (l.foldl relax s).order = s.order ∧
      (∀ i, (l.foldl relax s).inDegree i = if i ∈ l then s.inDegree i - 1 else s.inDegree i) ∧
      (l.foldl relax s).ready = (l.filter fun i => s.inDegree i - 1 = 0).reverse ++ s.ready := by
  induction l generalizing s with
  | nil => simp
  | cons a l ih =>
    obtain ⟨ha, hl⟩ := List.nodup_cons.mp hl
    obtain ⟨horder, hdegree, hready⟩ := ih hl (relax s a)
    have hother : ∀ i ∈ l, (relax s a).inDegree i = s.inDegree i := by
      rintro i hi
      have hne : i ≠ a := fun h => ha (h ▸ hi)
      exact Function.update_of_ne hne _ _
    refine ⟨horder, fun i => ?_, ?_⟩
    · rw [List.foldl_cons, hdegree]
      by_cases hi : i = a
      · subst hi
        simp [ha, relax]
      · by_cases hmem : i ∈ l
        · simp [hmem, hother i hmem]
        · simp [hmem, hi, relax]
    · have hfilter : (l.filter fun i => (relax s a).inDegree i - 1 = 0) =
          l.filter fun i => s.inDegree i - 1 = 0 :=
        List.filter_congr fun i hi => by rw [hother i hi]
      rw [List.foldl_cons, hready, hfilter]
      by_cases hzero : s.inDegree a - 1 = 0
      · simp [relax, hzero]
      · simp [relax, hzero]

variable {n : ℕ} {deps enables : ℕ → List ℕ}

/-- The vertices below `n` with what they depend on, and the same edges
backwards. -/
structure Graph (n : ℕ) (deps enables : ℕ → List ℕ) : Prop where
  nodup : ∀ i < n, (deps i).Nodup
  bound : ∀ i < n, ∀ j ∈ deps i, j < n
  enables_nodup : ∀ j, (enables j).Nodup
  mem_enables : ∀ i j, i ∈ enables j ↔ i < n ∧ j ∈ deps i

/-- What the search keeps: the counts are those of the dependencies not in the
order, the vertices with none are the ones ready or in the order, and the
order is a sorted one. -/
structure Inv (n : ℕ) (deps : ℕ → List ℕ) (s : State) : Prop where
  degree : ∀ i < n, s.inDegree i = ((deps i).filter (· ∉ s.order)).length
  nodup : (s.ready ++ s.order).Nodup
  mem : ∀ i, i ∈ s.ready ++ s.order ↔ i < n ∧ ∀ j ∈ deps i, j ∈ s.order
  sorted : ∀ pre i post, s.order = pre ++ i :: post → ∀ j ∈ deps i, j ∈ pre

namespace Inv

variable {s : State}

/-- A vertex that is taken leaves the dependencies of the others. -/
theorem filter_take {l order : List ℕ} (hl : l.Nodup) (idx : ℕ) :
    l.filter (· ∉ order ++ [idx]) = (l.filter (· ∉ order)).erase idx := by
  rw [(hl.filter _).erase_eq_filter, List.filter_filter]
  refine List.filter_congr fun i _ => ?_
  by_cases hi : i = idx <;> by_cases ho : i ∈ order <;> simp [hi, ho]

section Take

variable {idx : ℕ} {rest : List ℕ} (hg : Graph n deps enables) (h : Inv n deps s)
  (hready : s.ready = idx :: rest)

include h hready

theorem nodup_ready : (idx :: (rest ++ s.order)).Nodup := by
  have hnodup := h.nodup
  rwa [hready, List.cons_append] at hnodup

theorem notMem_order : idx ∉ s.order :=
  fun hmem => (List.nodup_cons.mp (h.nodup_ready hready)).1 (List.mem_append_right _ hmem)

theorem mem_ready (i : ℕ) :
    (i = idx ∨ i ∈ rest ∨ i ∈ s.order) ↔ i < n ∧ ∀ j ∈ deps i, j ∈ s.order := by
  rw [← h.mem i, hready]
  simp

include hg

/-- A dependent of the vertex taken waited for it until now. -/
theorem waits {i : ℕ} (hi : i ∈ enables idx) : ¬(i = idx ∨ i ∈ rest ∨ i ∈ s.order) := fun hold =>
  h.notMem_order hready
    (((h.mem_ready hready i).mp hold).2 idx ((hg.mem_enables i idx).mp hi).2)

theorem degree_take {i : ℕ} (hin : i < n) :
    (if i ∈ enables idx then s.inDegree i - 1 else s.inDegree i) =
      ((deps i).filter (· ∉ s.order ++ [idx])).length := by
  have hidx := h.notMem_order hready
  rw [filter_take (hg.nodup i hin)]
  by_cases hi : i ∈ enables idx
  · have hdep := ((hg.mem_enables i idx).mp hi).2
    rw [if_pos hi, List.length_erase_of_mem, ← h.degree i hin]
    simp [hdep, hidx]
  · have hdep : idx ∉ deps i := fun hdep => hi ((hg.mem_enables i idx).mpr ⟨hin, hdep⟩)
    rw [if_neg hi, List.erase_of_not_mem, ← h.degree i hin]
    simp [hdep]

theorem mem_take (i : ℕ) :
    i ∈ ((enables idx).filter fun i => s.inDegree i - 1 = 0).reverse ++ rest ++
        (s.order ++ [idx]) ↔ i < n ∧ ∀ j ∈ deps i, j ∈ s.order ++ [idx] := by
  have hold := h.mem_ready hready i
  by_cases hen : i ∈ enables idx
  · have hin := ((hg.mem_enables i idx).mp hen).1
    have hdegree := h.degree_take hg hready hin
    have hnew : s.inDegree i - 1 = 0 ↔ ∀ j ∈ deps i, j ∈ s.order ++ [idx] := by
      rw [if_pos hen] at hdegree
      rw [hdegree, List.length_eq_zero_iff, List.filter_eq_nil_iff]
      simp only [decide_eq_true_eq, not_not]
    have hnot := h.waits hg hready hen
    rw [← hnew]
    simp only [List.mem_append, List.mem_reverse, List.mem_filter, decide_eq_true_eq,
      List.mem_singleton]
    tauto
  · have hsame : (i < n ∧ ∀ j ∈ deps i, j ∈ s.order ++ [idx]) ↔
        i < n ∧ ∀ j ∈ deps i, j ∈ s.order := by
      refine and_congr_right fun hin => forall₂_congr fun j hj => ?_
      have hne : j ≠ idx := by
        rintro rfl
        exact hen ((hg.mem_enables i j).mpr ⟨hin, hj⟩)
      simp [hne]
    rw [hsame, ← hold]
    simp only [List.mem_append, List.mem_reverse, List.mem_filter, List.mem_singleton]
    tauto

theorem take :
    Inv n deps ((enables idx).foldl relax
      { s with ready := rest, order := s.order ++ [idx] }) := by
  obtain ⟨horder, hdegree, hready'⟩ := foldl_relax (hg.enables_nodup idx)
    { s with ready := rest, order := s.order ++ [idx] }
  refine ⟨fun i hin => ?_, ?_, fun i => ?_, ?_⟩
  · rw [hdegree, horder]
    exact h.degree_take hg hready hin
  · rw [hready', horder]
    have hperm : ((enables idx).filter fun i => s.inDegree i - 1 = 0).reverse ++
        rest ++ (s.order ++ [idx]) |>.Perm
        (((enables idx).filter fun i => s.inDegree i - 1 = 0) ++ (idx :: (rest ++ s.order))) := by
      rw [List.append_assoc, ← List.append_assoc rest]
      exact (List.reverse_perm _).append (List.perm_append_singleton idx _)
    rw [hperm.nodup_iff, List.nodup_append]
    refine ⟨(hg.enables_nodup idx).filter _, h.nodup_ready hready, ?_⟩
    rintro i hi _ hold rfl
    refine h.waits hg hready (List.mem_filter.mp hi).1 ?_
    simpa using hold
  · rw [hready', horder]
    exact h.mem_take hg hready i
  · rw [horder]
    intro pre i post heq j hj
    rcases List.eq_nil_or_concat post with rfl | ⟨post, last, rfl⟩
    · obtain ⟨rfl, hlast⟩ := List.append_inj' heq rfl
      obtain rfl : idx = i := by simpa using hlast
      exact ((h.mem_ready hready idx).mp (.inl rfl)).2 j hj
    · have heq' : s.order ++ [idx] = (pre ++ i :: post) ++ [last] := by
        simpa using heq
      exact h.sorted pre i post (List.append_inj' heq' rfl).1 j hj

end Take

/-- There are no more vertices in the order than there are vertices. -/
theorem length_le (h : Inv n deps s) : s.ready.length + s.order.length ≤ n := by
  have hsub : s.ready ++ s.order ⊆ List.range n := fun i hi =>
    List.mem_range.mpr ((h.mem i).mp hi).1
  have := (List.subperm_of_subset h.nodup hsub).length_le
  simpa using this

theorem search (hg : Graph n deps enables) (fuel : ℕ) (h : Inv n deps s) :
    Inv n deps (Kahn.search enables fuel s) ∧
      (n ≤ s.order.length + fuel → (Kahn.search enables fuel s).ready = []) := by
  induction fuel generalizing s with
  | zero =>
    refine ⟨h, fun hle => List.eq_nil_of_length_eq_zero ?_⟩
    have := h.length_le
    change s.ready.length = 0
    omega
  | succ fuel ih =>
    rw [Kahn.search]
    cases hready : s.ready with
    | nil => exact ⟨h, fun _ => hready⟩
    | cons idx rest =>
      obtain ⟨hinv, hempty⟩ := ih (h.take hg hready)
      refine ⟨hinv, fun hle => hempty ?_⟩
      rw [(foldl_relax (hg.enables_nodup idx) _).1, List.length_append]
      simp only [List.length_singleton]
      omega

end Inv

/-! ## What the order leaves out -/

/-- A vertex depends on another one. -/
def DependsOn (n : ℕ) (deps : ℕ → List ℕ) (i j : ℕ) : Prop := i < n ∧ j ∈ deps i

/-- The vertex is on a cycle or depends on one, directly or not. -/
def ReachesCycle (R : ℕ → ℕ → Prop) (i : ℕ) : Prop :=
  ∃ c, ReflTransGen R i c ∧ TransGen R c c

theorem mem_of_dependsOn {order : List ℕ}
    (hsorted : ∀ pre i post, order = pre ++ i :: post → ∀ j ∈ deps i, j ∈ pre)
    {i j : ℕ} (hi : i ∈ order) (h : TransGen (DependsOn n deps) i j) :
    ∃ pre post, order = pre ++ i :: post ∧ j ∈ pre := by
  obtain ⟨pre, post, rfl⟩ := List.append_of_mem hi
  refine ⟨pre, post, rfl, ?_⟩
  induction h with
  | single hij => exact hsorted pre i post rfl _ hij.2
  | tail _ hjk ih =>
    obtain ⟨before, after, rfl⟩ := List.append_of_mem ih
    refine List.mem_append_left _ (hsorted before _ (after ++ i :: post) ?_ _ hjk.2)
    simp

/-- A vertex in the order reaches no cycle. -/
theorem not_reachesCycle {order : List ℕ} (hnodup : order.Nodup)
    (hsorted : ∀ pre i post, order = pre ++ i :: post → ∀ j ∈ deps i, j ∈ pre)
    {i : ℕ} (hi : i ∈ order) : ¬ReachesCycle (DependsOn n deps) i := by
  rintro ⟨c, hic, hcc⟩
  have hc : c ∈ order := by
    rcases reflTransGen_iff_eq_or_transGen.mp hic with rfl | hic
    · exact hi
    · obtain ⟨pre, post, rfl, hpre⟩ := mem_of_dependsOn hsorted hi hic
      exact List.mem_append_left _ hpre
  obtain ⟨pre, post, rfl, hpre⟩ := mem_of_dependsOn hsorted hc hcc
  exact (List.nodup_append.mp hnodup).2.2 c hpre c List.mem_cons_self rfl

/-- If every vertex of a set of vertices depends on one in the set, a cycle can
be reached from each of them. -/
theorem reachesCycle_of_stuck {R : ℕ → ℕ → Prop} {U : ℕ → Prop} (hbound : ∀ i, U i → i < n)
    (hstuck : ∀ i, U i → ∃ j, U j ∧ R i j) {i : ℕ} (hi : U i) : ReachesCycle R i := by
  by_contra hnone
  -- without a cycle the vertices reached from here are well-founded
  let V := { j : Fin n // U j ∧ ReflTransGen R i j }
  let S : V → V → Prop := fun a b => TransGen R b.1 a.1
  have hfinite : Finite V := Subtype.finite
  have hirrefl : Std.Irrefl S := ⟨fun a ha => hnone ⟨a.1, a.2.2, ha⟩⟩
  have htrans : IsTrans V S := ⟨fun a b c hab hbc => hbc.trans hab⟩
  have hwf : WellFounded S := Finite.wellFounded_of_trans_of_irrefl S
  obtain ⟨m, -, hmin⟩ := hwf.has_min Set.univ ⟨⟨⟨i, hbound i hi⟩, hi, .refl⟩, trivial⟩
  obtain ⟨j, hj, hmj⟩ := hstuck m.1 m.2.1
  exact hmin ⟨⟨j, hbound j hj⟩, hj, m.2.2.tail hmj⟩ trivial (.single hmj)

/-- When no vertex is ready any more, those left out are the ones from which a
cycle can be reached. -/
theorem Inv.left_out_iff (hg : Graph n deps enables) {s : State}
    (h : Inv n deps s) (hready : s.ready = []) {i : ℕ} (hi : i < n) :
    i ∉ s.order ↔ ReachesCycle (DependsOn n deps) i := by
  have hmem : ∀ i, i ∈ s.order ↔ i < n ∧ ∀ j ∈ deps i, j ∈ s.order := by
    simpa [hready] using h.mem
  have hnodup : s.order.Nodup := by simpa [hready] using h.nodup
  constructor
  · intro hout
    refine reachesCycle_of_stuck (U := fun i => i < n ∧ i ∉ s.order)
      (fun i hi => hi.1) ?_ ⟨hi, hout⟩
    rintro i ⟨hin, hout⟩
    obtain ⟨j, hj, hnot⟩ : ∃ j ∈ deps i, j ∉ s.order := by
      by_contra hall
      push Not at hall
      exact hout ((hmem i).mpr ⟨hin, hall⟩)
    exact ⟨j, ⟨hg.bound i hin j hj, hnot⟩, hin, hj⟩
  · intro hcycle hin
    exact not_reachesCycle hnodup h.sorted hin hcycle

end Kahn
