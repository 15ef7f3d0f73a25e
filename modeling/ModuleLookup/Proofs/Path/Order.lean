import Mathlib.Data.List.Sort
import ModuleLookup.Path.Basic

/-!
# The order of paths

Paths are ordered by what they mean: component by component, and a path comes after the paths
around it. The order is total, and paths of which neither comes first have the same components. So
a list in which every path comes before the next is decided by what is in it, and sorting a list
without two paths that are the same makes such a list.

* `Path.Before` — a path comes before another.
* `Path.pairwise_before_mergeSort` — sorting puts paths that differ in this order.
* `Path.eq_of_pairwise_before` — and there is one such list of some given paths.
-/

namespace ModuleLookup

namespace Component

instance : Std.TransCmp (compare : Component → Component → Ordering) :=
  inferInstanceAs (Std.TransCmp (compareLex (compareOn rank) (compareOn text)))

/-- Components that are written alike and are of one kind are the same. -/
instance : Std.LawfulEqCmp (compare : Component → Component → Ordering) where
  eq_of_compare {a b} h := by
    obtain ⟨hrank, htext⟩ := Ordering.then_eq_eq.1 h
    replace hrank := Std.LawfulEqCmp.eq_of_compare hrank
    replace htext := Std.LawfulEqCmp.eq_of_compare htext
    cases a with
    | name s =>
      cases b with
      | name t => exact congrArg name htext
      | _ => cases hrank
    | _ => cases b <;> first | rfl | cases hrank

end Component

namespace Path

theorem compareComponents_eq (cs ds : List Component) :
    compareComponents cs ds = List.compareLex compare cs ds := by
  fun_induction compareComponents cs ds with
  | case1 => rfl
  | case2 => rfl
  | case3 => rfl
  | case4 c cs d ds ih => rw [ih, List.compareLex_cons_cons]

instance : Std.TransCmp compareComponents := by
  rw [show compareComponents = List.compareLex compare from
    funext fun cs => funext fun ds => compareComponents_eq cs ds]
  infer_instance

instance : Std.LawfulEqCmp compareComponents := by
  rw [show compareComponents = List.compareLex compare from
    funext fun cs => funext fun ds => compareComponents_eq cs ds]
  infer_instance

theorem compareComponents_swap (cs ds : List Component) :
    compareComponents cs ds = (compareComponents ds cs).swap :=
  Std.OrientedCmp.eq_swap

variable {p q : Path} {ps qs : List Path}

/-- A path comes before another. -/
def Before (p q : Path) : Prop :=
  compareComponents p.components q.components = .lt

instance (p q : Path) : Decidable (p.Before q) :=
  inferInstanceAs (Decidable (_ = _))

theorem le_iff_isLE : p.le q = true ↔ (compareComponents p.components q.components).isLE := by
  rw [le]
  cases compareComponents p.components q.components <;> decide

theorem le_trans (p q r : Path) (hpq : p.le q = true) (hqr : q.le r = true) : p.le r = true :=
  le_iff_isLE.2 (Std.TransCmp.isLE_trans (le_iff_isLE.1 hpq) (le_iff_isLE.1 hqr))

theorem le_total (p q : Path) : (p.le q || q.le p) = true := by
  rw [Bool.or_eq_true, le, le, compareComponents_swap]
  cases compareComponents q.components p.components <;> decide

/-- A path that comes no later than another comes before it, or is the same. -/
theorem before_of_le (hle : p.le q = true) (h : ¬p.Same q) : p.Before q := by
  rw [le_iff_isLE] at hle
  rcases hc : compareComponents p.components q.components
  · exact hc
  · exact absurd (Std.LawfulEqCmp.eq_of_compare hc) h
  · rw [hc] at hle
    cases hle

theorem not_before_of_before (h : p.Before q) : ¬q.Before p := by
  intro hq
  rw [Before, compareComponents_swap, hq] at h
  cases h

theorem Before.ne (h : p.Before q) : p ≠ q := by
  rintro rfl
  exact not_before_of_before h h

/-- Sorting puts paths that differ in order. -/
theorem pairwise_before_mergeSort (h : ps.Pairwise fun p q => ¬p.Same q) :
    (ps.mergeSort le).Pairwise Before := by
  have hsorted := List.pairwise_mergeSort le_trans le_total ps
  have hdiffer : (ps.mergeSort le).Pairwise fun p q => ¬p.Same q :=
    ((List.mergeSort_perm ps le).pairwise_iff fun hpq hqp => hpq hqp.symm).2 h
  exact hsorted.imp₂ (fun p q => before_of_le) hdiffer

/-- There is one list of some given paths in order. -/
theorem eq_of_pairwise_before (hps : ps.Pairwise Before) (hqs : qs.Pairwise Before)
    (h : ∀ p, p ∈ ps ↔ p ∈ qs) : ps = qs := by
  have hperm : ps.Perm qs :=
    (List.perm_ext_iff_of_nodup (hps.imp Before.ne) (hqs.imp Before.ne)).2 h
  exact hperm.eq_of_pairwise (fun p q _ _ hpq hqp => absurd hqp (not_before_of_before hpq)) hps hqs

end Path

end ModuleLookup
