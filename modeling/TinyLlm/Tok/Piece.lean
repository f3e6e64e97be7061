/-
# `TinyLlm.Tok.Piece` — pieces, and finding the token of one

A vocabulary lies in the model as three arrays: the bytes of all pieces one
after the other, where each starts, and the tokens in the order of their
pieces.  `tq_lookup` searches that order, so it is right for the arrays that
`add_tokenizer` writes: `PieceVocab.tokenizer` is the tokenizer over them, and
there a piece is found exactly if it is in the vocabulary (`tqLookup_spec`).

Scores are compared by `gt` and never computed with; they may be any type.
A token is an `int` as the C passes it, and -1 is no token.
-/
import Mathlib.Data.List.GetD
import TinyLlm.Lib.Search
import TinyLlm.Lib.Bytes
import TinyLlm.Status

namespace TinyLlm

open Bytes

structure TqTokenizer (S : Type) where
  scores : Nat → S
  offs : Nat → UInt32
  sorted : Nat → UInt32
  blob : List UInt8
  vocabSize : Int
  bos : Int
  eos : Int
  bufBytes : Nat

section Lookup
variable {S : Type} (T : TqTokenizer S)

/-- The bytes of token `id`. -/
def tqPiece (id : Int) : List UInt8 :=
  let a := T.offs id.toNat
  let b := T.offs (id.toNat + 1)
  slice T.blob a.toNat (b - a).toNat

/-- The sign of `memcmp(a, b, n)`, where both have `n` bytes. -/
def memcmp : Nat → List UInt8 → List UInt8 → Ordering
  | n + 1, x :: a, y :: b => (compare x y).then (memcmp n a b)
  | _, _, _ => .eq

/-- The sign of `tq_cmp`. -/
def tqCmp (a b : List UInt8) : Ordering :=
  let n := if a.length < b.length then a.length else b.length
  let c := if n ≠ 0 then memcmp n a b else .eq
  if c ≠ .eq then c
  else if a.length = b.length then .eq
  else if a.length < b.length then .lt else .gt

/-- Token id for an exact string, or -1. -/
def tqLookup (s : List UInt8) : Int :=
  match Search.bsearch (fun mid => tqCmp s (tqPiece T (T.sorted mid.toNat).toNat))
      T.vocabSize.toNat 0 (T.vocabSize - 1) with
  | some mid => (T.sorted mid.toNat).toNat
  | none => -1

end Lookup

/-! ## The comparison is the lexicographic one -/

theorem memcmp_cons (n : Nat) (x y : UInt8) (a b : List UInt8) :
    memcmp (n + 1) (x :: a) (y :: b) = (compare x y).then (memcmp n a b) := rfl

/-- `memcmp` on the common length, then the lengths. -/
theorem compare_eq_memcmp : ∀ a b : List UInt8,
    compare a b = (memcmp (min a.length b.length) a b).then (compare a.length b.length)
  | [], [] => rfl
  | [], _ :: _ => rfl
  | _ :: _, [] => rfl
  | x :: a, y :: b => by
      have ih := compare_eq_memcmp a b
      have hcons : compare (x :: a) (y :: b) = (compare x y).then (compare a b) :=
        List.compareLex_cons_cons
      have hmin : min (x :: a).length (y :: b).length = min a.length b.length + 1 := by
        rw [List.length_cons, List.length_cons, Nat.add_min_add_right]
      have hlen : compare (x :: a).length (y :: b).length = compare a.length b.length := by
        rw [List.length_cons, List.length_cons, Nat.compare_eq_ite_lt, Nat.compare_eq_ite_lt]
        simp only [Nat.add_lt_add_iff_right]
      rw [hcons, hmin, memcmp_cons, ih, hlen, Ordering.then_assoc]

/-- `tq_cmp` compares raw bytes, shorter-is-smaller on a tie. -/
theorem tqCmp_eq (a b : List UInt8) : tqCmp a b = compare a b := by
  have hn : (if a.length < b.length then a.length else b.length) = min a.length b.length := by
    split <;> omega
  have hc : ∀ n, (if n ≠ 0 then memcmp n a b else .eq) = memcmp n a b := fun n => by
    cases n with
    | zero => rfl
    | succ n => exact if_pos (Nat.succ_ne_zero n)
  rw [compare_eq_memcmp, Nat.compare_eq_ite_lt, tqCmp, hn, hc]
  generalize memcmp (min a.length b.length) a b = c
  cases c with
  | lt => rfl
  | gt => rfl
  | eq =>
      rw [if_neg (fun h => h rfl), Ordering.eq_then]
      rcases Nat.lt_trichotomy a.length b.length with hlt | heq | hgt
      · rw [if_neg (Nat.ne_of_lt hlt), if_pos hlt, if_pos hlt]
      · rw [if_pos heq, if_neg (by omega), if_neg (by omega)]
      · rw [if_neg (by omega), if_neg (by omega), if_neg (by omega), if_pos hgt]

/-! ## The exported vocabulary -/

/-- A vocabulary that the converter can write: the header has a signed 32-bit
word for its size and the directory an unsigned one for the size of the blob. -/
structure PieceVocab (S : Type) where
  pieces : List (List UInt8)
  scores : Nat → S
  count_lt : pieces.length < 2 ^ 31
  blob_lt : pieces.flatten.length < 2 ^ 32

/-- `_build_sorted`: the ids in the order of their pieces, ties in the order of the ids. -/
def buildSorted (pieces : List (List UInt8)) : List Nat :=
  (List.range pieces.length).mergeSort
    fun i j => (compare (pieces.getD i []) (pieces.getD j [])).isLE

/-- The arrays of `add_tokenizer`, bound as `tq_tokenizer_init` binds them. -/
def PieceVocab.tokenizer {S : Type} (V : PieceVocab S) (bos eos : Int) (bufBytes : Nat) :
    TqTokenizer S where
  scores := V.scores
  offs i := UInt32.ofNat (V.pieces.take i).flatten.length
  sorted i := UInt32.ofNat ((buildSorted V.pieces).getD i 0)
  blob := V.pieces.flatten
  vocabSize := V.pieces.length
  bos := bos
  eos := eos
  bufBytes := bufBytes

section Sorted
variable (pieces : List (List UInt8))

theorem length_buildSorted : (buildSorted pieces).length = pieces.length :=
  (List.length_mergeSort _).trans List.length_range

theorem mem_buildSorted {i : Nat} : i ∈ buildSorted pieces ↔ i < pieces.length :=
  List.mem_mergeSort.trans List.mem_range

/-- The pieces appear in their order. -/
theorem pairwise_buildSorted : (buildSorted pieces).Pairwise fun i j =>
    (compare (pieces.getD i []) (pieces.getD j [])).isLE = true := by
  refine List.pairwise_mergeSort (fun a b c => Std.TransCmp.isLE_trans) (fun a b => ?_) _
  rw [Std.OrientedOrd.eq_swap (a := pieces.getD b [])]
  cases compare (pieces.getD a []) (pieces.getD b []) <;> rfl

end Sorted

/-! ## Pieces in a blob -/

section Blob
variable {pieces : List (List UInt8)}

/-- The blob splits around a piece. -/
theorem blob_split {i : Nat} (h : i < pieces.length) :
    pieces.flatten =
      (pieces.take i).flatten ++ (pieces.getD i [] ++ (pieces.drop (i + 1)).flatten) := by
  have hget : pieces.getD i [] = pieces[i] := List.getD_eq_getElem _ _ h
  rw [hget, ← List.flatten_cons, ← List.drop_eq_getElem_cons h, ← List.flatten_append,
    List.take_append_drop]

theorem length_take_succ {i : Nat} (h : i < pieces.length) :
    (pieces.take (i + 1)).flatten.length =
      (pieces.take i).flatten.length + (pieces.getD i []).length := by
  have hget : pieces.getD i [] = pieces[i] := List.getD_eq_getElem _ _ h
  rw [List.take_succ_eq_append_getElem h, List.flatten_append, List.length_append, hget,
    List.flatten_singleton]

theorem length_take_le (i : Nat) : (pieces.take i).flatten.length ≤ pieces.flatten.length := by
  conv => rhs; rw [← List.take_append_drop i pieces, List.flatten_append, List.length_append]
  exact Nat.le_add_right _ _

/-- A piece is cut out of the blob. -/
theorem slice_blob {i : Nat} (h : i < pieces.length) :
    slice pieces.flatten (pieces.take i).flatten.length (pieces.getD i []).length =
      pieces.getD i [] := by
  rw [blob_split h, slice_append_right (Nat.le_refl _), Nat.sub_self, slice_append_left (by omega),
    slice_zero rfl]

end Blob

/-! ## A tokenizer that carries pieces -/

/-- The arrays of `T` carry the pieces: their number, the bytes of each and the
ids in the order of their pieces. -/
structure TqTokenizer.Carries {S : Type} (T : TqTokenizer S) (pieces : List (List UInt8)) :
    Prop where
  size : T.vocabSize = pieces.length
  piece : ∀ i < pieces.length, tqPiece T i = pieces.getD i []
  sorted : ∀ k < pieces.length, (T.sorted k).toNat = (buildSorted pieces).getD k 0

section Carries
variable {S : Type} {T : TqTokenizer S} {pieces : List (List UInt8)}

/-- Offsets that cut the blob exactly give the pieces. -/
theorem tqPiece_eq (hoffs : ∀ i ≤ pieces.length, (T.offs i).toNat = (pieces.take i).flatten.length)
    (hblob : slice T.blob 0 pieces.flatten.length = pieces.flatten) {i : Nat}
    (h : i < pieces.length) :
    tqPiece T i = pieces.getD i [] := by
  have ha := hoffs i h.le
  have hb := hoffs (i + 1) h
  have hend := @length_take_le pieces (i + 1)
  rw [length_take_succ h] at hb hend
  have hlen : (T.offs (i + 1) - T.offs i).toNat = (pieces.getD i []).length := by
    rw [UInt32.toNat_sub_of_le _ _ (UInt32.le_iff_toNat_le.mpr (by omega)), ha, hb,
      Nat.add_sub_cancel_left]
  unfold tqPiece
  dsimp only
  rw [Int.toNat_natCast, ha, hlen]
  have hslice := @slice_slice T.blob (pieces.take i).flatten.length (pieces.getD i []).length 0
    pieces.flatten.length hend
  rw [hblob, Nat.zero_add] at hslice
  rw [← hslice, slice_blob h]

theorem sorted_lt {k : Nat} (h : k < pieces.length) :
    (buildSorted pieces).getD k 0 < pieces.length := by
  have hlen := length_buildSorted pieces
  refine (mem_buildSorted pieces).mp ?_
  rw [List.getD_eq_getElem _ _ (by omega)]
  exact List.getElem_mem _

/-- Later in the sorted array is no smaller. -/
theorem sorted_le {i j : Nat} (hij : i ≤ j) (hj : j < pieces.length) :
    (compare (pieces.getD ((buildSorted pieces).getD i 0) [])
      (pieces.getD ((buildSorted pieces).getD j 0) [])).isLE = true := by
  have hlen := length_buildSorted pieces
  rcases Nat.eq_or_lt_of_le hij with rfl | hlt
  · rw [Std.ReflOrd.compare_self]
    rfl
  · have hpair := List.pairwise_iff_getElem.mp (pairwise_buildSorted pieces) i j (by omega)
      (by omega) hlt
    have hget : ∀ k (hk : k < (buildSorted pieces).length),
        (buildSorted pieces).getD k 0 = (buildSorted pieces)[k] :=
      fun k hk => List.getD_eq_getElem _ _ hk
    rw [hget i (by omega), hget j (by omega)]
    exact hpair

/-- **The search** finds a piece that is carried, with a token that has it, and
nothing else. -/
theorem TqTokenizer.Carries.tqLookup (hT : T.Carries pieces) (s : List UInt8) :
    (s ∈ pieces ∧ ∃ i < pieces.length, TinyLlm.tqLookup T s = i ∧ pieces.getD i [] = s) ∨
      s ∉ pieces ∧ TinyLlm.tqLookup T s = -1 := by
  have hlen := length_buildSorted pieces
  have hprobe : ∀ mid : Int, 0 ≤ mid → mid ≤ (pieces.length : Int) - 1 →
      tqPiece T (T.sorted mid.toNat).toNat =
      pieces.getD ((buildSorted pieces).getD mid.toNat 0) [] := by
    intro mid h₀ h₁
    rw [hT.sorted mid.toNat (by omega), hT.piece _ (sorted_lt (by omega))]
  have hdir : Search.Directed (fun mid => tqCmp s (tqPiece T (T.sorted mid.toNat).toNat)) 0
      ((pieces.length : Int) - 1) := by
    simp only [tqCmp_eq]
    refine Search.directed_of_sorted s fun i j hi hij hj => ?_
    rw [hprobe i hi (by omega), hprobe j (by omega) hj]
    exact sorted_le (by omega) (by omega)
  unfold TinyLlm.tqLookup
  rw [hT.size]
  cases hfound : Search.bsearch (fun mid => tqCmp s (tqPiece T (T.sorted mid.toNat).toNat))
      (pieces.length : Int).toNat 0 ((pieces.length : Int) - 1) with
  | some mid =>
      obtain ⟨h₀, h₁, hit⟩ := Search.bsearch_some hfound
      have hlt := @sorted_lt pieces mid.toNat (by omega)
      rw [hprobe mid h₀ h₁, tqCmp_eq, Std.LawfulEqOrd.compare_eq_iff_eq] at hit
      refine .inl ⟨?_, _, hlt, congrArg Int.ofNat (hT.sorted mid.toNat (by omega)), hit.symm⟩
      rw [hit, List.getD_eq_getElem _ _ hlt]
      exact List.getElem_mem _
  | none =>
      refine .inr ⟨fun hmem => ?_, rfl⟩
      obtain ⟨i, hi, hs⟩ := List.mem_iff_getElem.mp hmem
      obtain ⟨k, hk, hki⟩ := List.mem_iff_getElem.mp ((mem_buildSorted pieces).mpr hi)
      have hkD : (buildSorted pieces).getD k 0 = i := (List.getD_eq_getElem _ _ hk).trans hki
      have hit : tqCmp s (tqPiece T (T.sorted (k : Int).toNat).toNat) = .eq := by
        rw [hprobe k (by omega) (by omega), tqCmp_eq, Std.LawfulEqOrd.compare_eq_iff_eq,
          Int.toNat_natCast, hkD, ← hs]
        exact (List.getD_eq_getElem _ _ hi).symm
      obtain ⟨j, hj⟩ := Search.bsearch_hit hdir (Int.natCast_nonneg k) (by omega) hit
        (show (pieces.length : Int) - 1 + 1 - 0 ≤ ((pieces.length : Int).toNat : Int) by omega)
      rw [hfound] at hj
      cases hj

end Carries

namespace PieceVocab
variable {S : Type} (V : PieceVocab S) (bos eos : Int) (bufBytes : Nat)

/-- **The exported arrays** carry the pieces. -/
theorem tokenizer_carries : (V.tokenizer bos eos bufBytes).Carries V.pieces where
  size := rfl
  piece i hi := by
    refine tqPiece_eq (fun k _ => ?_) (slice_zero rfl) hi
    exact UInt32.toNat_ofNat_of_lt' (Nat.lt_of_le_of_lt (length_take_le k) V.blob_lt)
  sorted k hk := by
    have hlt := sorted_lt hk
    have hcount := V.count_lt
    exact UInt32.toNat_ofNat_of_lt' (by show _ < 2 ^ 32; omega)

/-- **Lookup.**  A piece of the vocabulary is found, with a token that has it,
and nothing else is. -/
theorem tqLookup_spec (s : List UInt8) :
    (s ∈ V.pieces ∧ ∃ i < V.pieces.length, tqLookup (V.tokenizer bos eos bufBytes) s = i ∧
        V.pieces.getD i [] = s) ∨
      s ∉ V.pieces ∧ tqLookup (V.tokenizer bos eos bufBytes) s = -1 :=
  (V.tokenizer_carries bos eos bufBytes).tqLookup s

end PieceVocab

end TinyLlm
