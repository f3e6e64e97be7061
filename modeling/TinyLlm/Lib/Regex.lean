/-
# `TinyLlm.Lib.Regex` — a backtracking matcher

Patterns built from character classes, greedy repetition, options and groups,
matched the way a backtracking engine does: `Rx.runs` lists every way to match
at the front of a text, in the order the engine tries them, and the match is
the first of them.  `search` takes the leftmost position that matches and
`erase` drops every match, left to right.

A match is found by following the engine's first choices (`first_seq`,
`first_many`); that there is none needs all of them, and the one case where
the later choices are idle by construction is a repetition followed by a class
disjoint from it (`first_many_one`).
-/
import Mathlib.Data.List.Basic
import Mathlib.Data.List.Infix
import Mathlib.Tactic.Common

namespace Regex

variable {α : Type*}

/-- A pattern over the alphabet `α`. -/
inductive Rx (α : Type*) where
  /-- One character of a class. -/
  | one (p : α → Bool)
  /-- `[…]*`, as many as there are first. -/
  | many (p : α → Bool)
  | seq (r s : Rx α)
  /-- `(…)?`, matched first and left out second. -/
  | opt (r : Rx α)
  /-- `(…)`, whose text is kept. -/
  | group (r : Rx α)
  /-- The empty pattern. -/
  | eps
  /-- The end of the text. -/
  | eos

namespace Rx

/-- `[…]+` -/
def many1 (p : α → Bool) : Rx α := seq (one p) (many p)

/-- A literal text in front of `r`. -/
def lit [DecidableEq α] : List α → Rx α → Rx α
  | [], r => r
  | a :: as, r => seq (one (· == a)) (lit as r)

/-- What `[…]*` may leave over, from the longest run to the empty one. -/
def leftovers (p : α → Bool) : List α → List (List α)
  | [] => [[]]
  | a :: s => if p a then leftovers p s ++ [a :: s] else [a :: s]

/-- Every match at the front of the text: the groups' texts, and what is left
of the text after it. -/
def runs : Rx α → List α → List (List (List α) × List α)
  | one p, s =>
      match s with
      | [] => []
      | a :: s => if p a then [([], s)] else []
  | many p, s => (leftovers p s).map fun t => ([], t)
  | seq r q, s => (runs r s).flatMap fun m => (runs q m.2).map fun n => (m.1 ++ n.1, n.2)
  | opt r, s => runs r s ++ [([], s)]
  | group r, s => (runs r s).map fun m => (s.take (s.length - m.2.length) :: m.1, m.2)
  | eps, s => [([], s)]
  | eos, s => if s.isEmpty then [([], s)] else []

section Runs
variable (p : α → Bool) (r q : Rx α) (s : List α)

theorem runs_one_cons (a : α) : runs (one p) (a :: s) = if p a then [([], s)] else [] := rfl

theorem runs_many : runs (many p) s = (leftovers p s).map fun t => ([], t) := rfl

theorem runs_seq : runs (seq r q) s =
    (runs r s).flatMap fun m => (runs q m.2).map fun n => (m.1 ++ n.1, n.2) := rfl

theorem runs_opt : runs (opt r) s = runs r s ++ [([], s)] := rfl

theorem runs_group : runs (group r) s =
    (runs r s).map fun m => (s.take (s.length - m.2.length) :: m.1, m.2) := rfl

theorem runs_eos : runs (eos : Rx α) s = if s.isEmpty then [([], s)] else [] := rfl

end Runs

/-- The match a backtracking engine finds at the front of the text. -/
def first (r : Rx α) (s : List α) : Option (List (List α) × List α) := (runs r s).head?

/-- The leftmost match: the text before it, its groups, and the text after. -/
def search (r : Rx α) : List α → Option (List α × List (List α) × List α)
  | [] => (first r []).map fun m => ([], m)
  | a :: s =>
      match first r (a :: s) with
      | some m => some ([], m)
      | none => (search r s).map fun f => (a :: f.1, f.2)

/-- The text without the characters still to be skipped and without the
matches after them.  An empty match drops nothing. -/
def eraseFrom (r : Rx α) : Nat → List α → List α
  | _, [] => []
  | k + 1, _ :: s => eraseFrom r k s
  | 0, a :: s =>
      match first r (a :: s) with
      | some m =>
          if m.2.length ≤ s.length then eraseFrom r (s.length - m.2.length) s
          else a :: eraseFrom r 0 s
      | none => a :: eraseFrom r 0 s

/-- The text with every match replaced by nothing. -/
def erase (r : Rx α) (s : List α) : List α := eraseFrom r 0 s

/-! ## A match is a prefix -/

/-! ## The engine's first choices -/

theorem first_one {p : α → Bool} {a : α} {s : List α} (h : p a = true) :
    first (one p) (a :: s) = some ([], s) := by
  rw [first, runs_one_cons, if_pos h]
  rfl

theorem first_one_ne {p : α → Bool} {a : α} {s : List α} (h : p a = false) :
    first (one p) (a :: s) = none := by
  rw [first, runs_one_cons, if_neg (by simp [h])]
  rfl

/-- If the first choice of `r` lets `q` match, the two match together. -/
theorem first_seq {r q : Rx α} {s : List α} {m n : List (List α) × List α}
    (hr : first r s = some m) (hq : first q m.2 = some n) :
    first (seq r q) s = some (m.1 ++ n.1, n.2) := by
  obtain ⟨ms, hms⟩ := List.head?_eq_some_iff.mp hr
  obtain ⟨ns, hns⟩ := List.head?_eq_some_iff.mp hq
  simp [first, runs_seq, hms, hns]

theorem first_seq_none {r q : Rx α} {s : List α} (h : first r s = none) :
    first (seq r q) s = none := by
  have hr : runs r s = [] := List.head?_eq_none_iff.mp h
  simp [first, runs_seq, hr]

theorem first_group {r : Rx α} {u t : List α} {gs : List (List α)}
    (h : first r (u ++ t) = some (gs, t)) : first (group r) (u ++ t) = some (u :: gs, t) := by
  obtain ⟨ms, hms⟩ := List.head?_eq_some_iff.mp h
  simp [first, runs_group, hms]

theorem first_opt {r : Rx α} {s : List α} {m : List (List α) × List α}
    (h : first r s = some m) : first (opt r) s = some m := by
  obtain ⟨ms, hms⟩ := List.head?_eq_some_iff.mp h
  simp [first, runs_opt, hms]

theorem leftovers_head (p : α → Bool) : ∀ s, (leftovers p s).head? = some (s.dropWhile p)
  | [] => rfl
  | a :: s => by
      unfold leftovers
      by_cases h : p a = true
      · simp [h, leftovers_head p s]
      · simp [h]

/-- Repetition takes the whole run first. -/
theorem first_many (p : α → Bool) (s : List α) :
    first (many p) s = some ([], s.dropWhile p) := by
  simp [first, runs_many, leftovers_head]

theorem first_many_append {p : α → Bool} {u : List α} (hu : ∀ a ∈ u, p a = true) {t : List α}
    (ht : ∀ a ∈ t.head?, p a = false) : first (many p) (u ++ t) = some ([], t) := by
  have hdrop : t.dropWhile p = t := by
    cases t with
    | nil => rfl
    | cons a t => simp [ht a rfl]
  rw [first_many, List.dropWhile_append_of_pos hu, hdrop]

theorem first_many1_append {p : α → Bool} {u : List α} (hu : ∀ a ∈ u, p a = true)
    (hne : u ≠ []) {t : List α} (ht : ∀ a ∈ t.head?, p a = false) :
    first (many1 p) (u ++ t) = some ([], t) := by
  obtain ⟨a, u, rfl⟩ := List.exists_cons_of_ne_nil hne
  exact first_seq (first_one (hu a (by simp)))
    (first_many_append (fun b hb => hu b (by simp [hb])) ht)

theorem first_lit [DecidableEq α] : ∀ (u : List α) {r : Rx α} {t : List α}
    {m : List (List α) × List α}, first r t = some m → first (lit u r) (u ++ t) = some m
  | [], _, _, _, h => h
  | a :: u, _, _, _, h => first_seq (first_one (by simp)) (first_lit u h)

theorem first_eps (s : List α) : first eps s = some ([], s) := rfl

/-! ## The later choices -/

/-- A repetition followed by a class disjoint from it can only match with the
whole run: every shorter one stops before a character of the run. -/
theorem first_many_one {p q : α → Bool} (hpq : ∀ a, p a = true → q a = false) (s : List α) :
    first (seq (many p) (one q)) s = first (one q) (s.dropWhile p) := by
  have hshort : ∀ s : List α, (runs (seq (many p) (one q)) s) = runs (one q) (s.dropWhile p) := by
    intro s
    induction s with
    | nil => rfl
    | cons a s ih =>
        simp only [runs_seq, runs_many, List.flatMap_map] at ih ⊢
        unfold leftovers
        by_cases ha : p a = true
        · rw [if_pos ha, List.flatMap_append, ih]
          simp [ha, runs_one_cons, hpq a ha]
        · rw [if_neg ha]
          simp [ha]
  rw [first, first, hshort]

/-! ## Searching and erasing -/

theorem search_here {r : Rx α} {s : List α} {m : List (List α) × List α}
    (h : first r s = some m) : search r s = some ([], m) := by
  cases s with
  | nil => simp [search, h]
  | cons a s => simp [search, h]

theorem search_cons {r : Rx α} {a : α} {s : List α} (h : first r (a :: s) = none) :
    search r (a :: s) = (search r s).map fun f => (a :: f.1, f.2) := by
  simp [search, h]

/-- The search passes over a text none of whose characters starts a match. -/
theorem search_append {r : Rx α} {u : List α} (hu : ∀ a ∈ u, ∀ s, first r (a :: s) = none)
    {s : List α} : search r (u ++ s) = (search r s).map fun f => (u ++ f.1, f.2) := by
  induction u with
  | nil =>
      cases h : search r s with
      | none => simp [h]
      | some m => simp [h]
  | cons a u ih =>
      rw [List.cons_append, search_cons (hu a (by simp) _), ih (fun b hb => hu b (by simp [hb]))]
      cases search r s with
      | none => rfl
      | some m => rfl

/-- The text before a match is a prefix. -/
theorem search_prefix {r : Rx α} : ∀ {s : List α} {m : List α × List (List α) × List α},
    search r s = some m → m.1 <+: s
  | [], m, h => by
      obtain ⟨f, _, rfl⟩ := Option.map_eq_some_iff.mp h
      exact List.prefix_rfl
  | a :: s, m, h => by
      unfold search at h
      split at h
      · cases h
        exact List.nil_prefix
      · obtain ⟨f, hf, rfl⟩ := Option.map_eq_some_iff.mp h
        exact List.cons_prefix_cons.mpr ⟨rfl, search_prefix hf⟩

@[simp] theorem erase_nil (r : Rx α) : erase r [] = [] := rfl

theorem eraseFrom_eq (r : Rx α) : ∀ (k : Nat) (s : List α), eraseFrom r k s = erase r (s.drop k)
  | 0, s => by simp [erase]
  | k + 1, [] => by simp [erase, eraseFrom]
  | k + 1, _ :: s => by
      rw [eraseFrom, eraseFrom_eq r k s]
      rfl

theorem eraseFrom_sublist (r : Rx α) : ∀ (k : Nat) (s : List α), (eraseFrom r k s).Sublist s
  | k, [] => by cases k <;> exact .slnil
  | k + 1, a :: s => (eraseFrom_sublist r k s).cons a
  | 0, a :: s => by
      unfold eraseFrom
      split
      · split
        · exact (eraseFrom_sublist r _ s).cons a
        · exact (eraseFrom_sublist r 0 s).cons_cons a
      · exact (eraseFrom_sublist r 0 s).cons_cons a

/-- Erasing only leaves out. -/
theorem erase_sublist (r : Rx α) (s : List α) : (erase r s).Sublist s := eraseFrom_sublist r 0 s

/-- Where nothing matches the character stays. -/
theorem erase_cons {r : Rx α} {a : α} {s : List α} (h : first r (a :: s) = none) :
    erase r (a :: s) = a :: erase r s := by
  simp [erase, eraseFrom, h]

/-- A match goes, whatever it is. -/
theorem erase_append {r : Rx α} {u t : List α} {gs : List (List α)} (hu : u ≠ [])
    (h : first r (u ++ t) = some (gs, t)) : erase r (u ++ t) = erase r t := by
  obtain ⟨a, u, rfl⟩ := List.exists_cons_of_ne_nil hu
  have hlen : t.length ≤ (u ++ t).length := by simp
  simp only [List.cons_append] at h ⊢
  rw [erase, eraseFrom, h]
  simp only [hlen, if_true]
  rw [eraseFrom_eq]
  simp

end Rx

end Regex
