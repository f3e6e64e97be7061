/-
# `TinyLlm.Lib.Bump` — regions one after the other

A bump allocator hands out regions in order, each at the next multiple of its
alignment.  The regions of `place s items` begin at `s` or later, no two of
them meet (`place_disjoint`), and all of them end at `top s items` at the
latest, one of them exactly there: so they fit below a bound exactly if the
top does (`place_le_iff`).
-/
import Mathlib.Order.Interval.Set.Disjoint
import Mathlib.Order.CompletePartialOrder
import Mathlib.Algebra.BigOperators.Group.List.Basic
import Mathlib.Algebra.GroupWithZero.Nat

namespace Bump

/-! ## Alignment -/

/-- The bytes skipped in front of the next multiple of `a`. -/
def pad (a n : Nat) : Nat := (a - n % a) % a

/-- The next multiple of `a`. -/
def roundUp (a n : Nat) : Nat := n + pad a n

theorem le_roundUp (a n : Nat) : n ≤ roundUp a n := Nat.le_add_right _ _

theorem roundUp_lt {a : Nat} (ha : 0 < a) (n : Nat) : roundUp a n < n + a :=
  Nat.add_lt_add_left (Nat.mod_lt _ ha) n

@[simp] theorem roundUp_one (n : Nat) : roundUp 1 n = n := by
  unfold roundUp pad
  rw [Nat.mod_one, Nat.add_zero]

theorem roundUp_mod {a : Nat} (ha : 0 < a) (n : Nat) : roundUp a n % a = 0 := by
  have hdiv := Nat.div_add_mod n a
  have hlt := Nat.mod_lt n ha
  by_cases hz : n % a = 0
  · have hpad : pad a n = 0 := by rw [pad, hz, Nat.sub_zero, Nat.mod_self]
    rw [roundUp, hpad, Nat.add_zero, hz]
  · have hpad : pad a n = a - n % a := Nat.mod_eq_of_lt (by omega)
    have hnext : roundUp a n = a * (n / a + 1) := by
      rw [roundUp, hpad, Nat.mul_succ]
      omega
    rw [hnext, Nat.mul_mod_right]

/-- The padding does not change when multiples are added. -/
theorem pad_add {a k : Nat} (hk : k % a = 0) (n : Nat) : pad a (k + n) = pad a n := by
  unfold pad
  rw [Nat.add_mod, hk, Nat.zero_add, Nat.mod_mod]

/-- The usual `(n + a - 1) / a * a`. -/
theorem roundUp_eq {a : Nat} (ha : 0 < a) (n : Nat) :
    roundUp a n = n + (a - 1) - (n + (a - 1)) % a := by
  have hlow := le_roundUp a n
  have hhigh := roundUp_lt ha n
  have hrem : (n + (a - 1)) % a = n + (a - 1) - roundUp a n := by
    have hsplit : n + (a - 1) = roundUp a n + (n + (a - 1) - roundUp a n) := by omega
    rw [hsplit, Nat.add_mod, roundUp_mod ha, Nat.zero_add, Nat.mod_mod, Nat.add_sub_cancel_left]
    exact Nat.mod_eq_of_lt (by omega)
  omega

/-! ## Regions -/

structure Region where
  start : Nat
  size : Nat
deriving DecidableEq, Repr

namespace Region

def stop (r : Region) : Nat := r.start + r.size

/-- The addresses of a region. -/
def addrs (r : Region) : Set Nat := Set.Ico r.start r.stop

theorem disjoint_of_le {r r' : Region} (h : r.stop ≤ r'.start) : Disjoint r.addrs r'.addrs :=
  Set.Ico_disjoint_Ico.mpr ((min_le_left _ _).trans (h.trans (le_max_right _ _)))

end Region

/-! ## Placement -/

/-- Place items, each an alignment and a size, from `s` on. -/
def place : Nat → List (Nat × Nat) → List Region
  | _, [] => []
  | s, (a, n) :: items => ⟨roundUp a s, n⟩ :: place (roundUp a s + n) items

/-- The first address behind the last item. -/
def top : Nat → List (Nat × Nat) → Nat
  | s, [] => s
  | s, (a, n) :: items => top (roundUp a s + n) items

@[simp] theorem length_place (items : List (Nat × Nat)) :
    ∀ s, (place s items).length = items.length := by
  induction items with
  | nil => exact fun _ => rfl
  | cons item items ih => exact fun s => congrArg Nat.succ (ih _)

theorem le_top (items : List (Nat × Nat)) : ∀ s, s ≤ top s items := by
  induction items with
  | nil => exact fun s => Nat.le_refl s
  | cons item items ih =>
      intro s
      exact (le_roundUp item.1 s).trans ((Nat.le_add_right _ _).trans (ih _))

theorem start_le {items : List (Nat × Nat)} : ∀ {s : Nat} {r : Region}, r ∈ place s items →
    s ≤ r.start := by
  induction items with
  | nil => exact nofun
  | cons item items ih =>
      intro s r hr
      rcases List.mem_cons.mp hr with rfl | hr
      · exact le_roundUp item.1 s
      · exact (le_roundUp item.1 s).trans ((Nat.le_add_right _ _).trans (ih hr))

theorem stop_le_top {items : List (Nat × Nat)} : ∀ {s : Nat} {r : Region}, r ∈ place s items →
    r.stop ≤ top s items := by
  induction items with
  | nil => exact nofun
  | cons item items ih =>
      intro s r hr
      rcases List.mem_cons.mp hr with rfl | hr
      · exact le_top items _
      · exact ih hr

/-- Items of one alignment start at multiples of it. -/
theorem start_mod {a : Nat} (ha : 0 < a) {items : List (Nat × Nat)}
    (hitems : ∀ i ∈ items, i.1 = a) :
    ∀ {s : Nat} {r : Region}, r ∈ place s items → r.start % a = 0 := by
  induction items with
  | nil => exact nofun
  | cons item items ih =>
      intro s r hr
      rcases List.mem_cons.mp hr with rfl | hr
      · show roundUp item.1 s % a = 0
        rw [hitems item List.mem_cons_self]
        exact roundUp_mod ha s
      · exact ih (fun i hi => hitems i (List.mem_cons_of_mem _ hi)) hr

/-- Items of one alignment take the sum of their sizes, and less than `a` for
each of them. -/
theorem top_le {a : Nat} (ha : 0 < a) {items : List (Nat × Nat)} (hitems : ∀ i ∈ items, i.1 = a) :
    ∀ s, top s items + items.length ≤ s + (items.map Prod.snd).sum + a * items.length := by
  induction items with
  | nil => exact fun s => Nat.le_refl s
  | cons item items ih =>
      intro s
      have hrest := ih (fun i hi => hitems i (List.mem_cons_of_mem _ hi))
        (roundUp item.1 s + item.2)
      have hpad := roundUp_lt ha s
      rw [hitems item List.mem_cons_self] at hrest
      show top (roundUp item.1 s + item.2) items + (items.length + 1) ≤ _
      rw [hitems item List.mem_cons_self, List.map_cons, List.sum_cons,
        List.length_cons, Nat.mul_succ]
      omega

/-- Each region ends before the next begins. -/
theorem place_ordered (items : List (Nat × Nat)) : ∀ s,
    (place s items).Pairwise fun r r' => r.stop ≤ r'.start := by
  induction items with
  | nil => exact fun _ => List.Pairwise.nil
  | cons item items ih =>
      intro s
      exact List.pairwise_cons.mpr ⟨fun r hr => start_le hr, ih _⟩

/-- **No two regions meet.** -/
theorem place_disjoint (s : Nat) (items : List (Nat × Nat)) :
    (place s items).Pairwise fun r r' => Disjoint r.addrs r'.addrs :=
  (place_ordered items s).imp Region.disjoint_of_le

/-- **The regions fit** below a bound exactly if the top does. -/
theorem place_le_iff {cap : Nat} (items : List (Nat × Nat)) : ∀ {s : Nat}, s ≤ cap →
    ((∀ r ∈ place s items, r.stop ≤ cap) ↔ top s items ≤ cap) := by
  induction items with
  | nil => exact fun hs => ⟨fun _ => hs, fun _ => nofun⟩
  | cons item items ih =>
      intro s _
      constructor
      · intro h
        have hfirst : roundUp item.1 s + item.2 ≤ cap := h _ List.mem_cons_self
        exact (ih hfirst).mp fun r hr => h r (List.mem_cons_of_mem _ hr)
      · exact fun h r hr => (stop_le_top hr).trans h

end Bump
