/-
# `TinyLlm.Model.Streaming` — a streaming store stands for the mapped one

A store that reads an image through a callback, beside the store that has the
image mapped.  Where the first finds something, the second finds the same bytes
and perhaps more behind them (`fetch_mapped_of_stream`), so a pointer into the
tile is mirrored by one into the image (`viewOr_mirror`) and reading through
both gives equal bytes (`deref_mirror`), up to the next view.  `tq_model_open`
is the first program over this; a decode step is the next.
-/
import TinyLlm.Model.Open

namespace TinyLlm

open Bytes Relational

/-- Where the streaming side returns, so does the mapped one; and the streaming
side never reads through a pointer that was overwritten. -/
def mirror : Mode Fault := Mode.refine (· = .stale)

/-- A pointer into the tile, and one at the same bytes in the image. -/
def Mirrors (image : List UInt8) (v w : TqView) (t u : TqTile) : Prop :=
  ∃ off n, off + n ≤ image.length ∧ Behind (slice image off n) n v t ∧
    Behind (image.drop off) (image.length - off) w u

section Mirror
variable {image : List UInt8} {read : Nat → Nat → Option (List UInt8)}
variable {bytes : UInt64} {tileBytes : UInt32}

theorem fetch_mapped_of_stream (hread : ServesImage image read) {off nbytes n : Nat}
    {bs : List UInt8} (h : (tqStoreInitStream bytes read tileBytes).fetch off nbytes =
    some (bs, n)) :
    n = nbytes ∧ off + nbytes ≤ image.length ∧ bs = slice image off nbytes ∧
      (tqStoreInitMapped image bytes).fetch off nbytes =
        some (image.drop off, image.length - off) := by
  unfold tqStoreInitStream TqStore.fetch at h
  unfold tqStoreInitMapped TqStore.fetch
  by_cases hin : (off + nbytes) % 2 ^ 64 > bytes.toNat
  · rw [if_pos hin] at h
    cases h
  · rw [if_neg hin] at h ⊢
    dsimp only at h ⊢
    split at h
    · cases h
    · obtain ⟨cs, hcs, heq⟩ := Option.map_eq_some_iff.mp h
      cases heq
      obtain ⟨hlen, hbs⟩ := hread off nbytes bs hcs
      exact ⟨rfl, hlen, hbs, by rw [List.length_drop]⟩

/-- A view of the streaming store is inside the image. -/
theorem viewOr_stream (hread : ServesImage image read) (off nbytes : Nat) (rc : TqStatus) :
    Triple (· = Fault.stale) (fun _ => True)
      (viewOr (tqStoreInitStream bytes read tileBytes) off nbytes rc)
      fun v t => off + nbytes ≤ image.length ∧ Behind (slice image off nbytes) nbytes v t := by
  intro t _
  have hs := viewOr_exec (tqStoreInitStream bytes read tileBytes) off nbytes rc t
  cases hf : (tqStoreInitStream bytes read tileBytes).fetch off nbytes with
  | none =>
      rw [hf] at hs
      obtain ⟨t', hs⟩ := hs
      rw [hs]
      exact nofun
  | some found =>
      obtain ⟨bs, n⟩ := found
      obtain ⟨rfl, hlen, rfl, _⟩ := fetch_mapped_of_stream hread hf
      rw [hf] at hs
      obtain ⟨v, t', hv, hbehind⟩ := hs
      rw [hv]
      exact ⟨hlen, hbehind⟩

/-- **Views** of the two stores. -/
theorem viewOr_mirror (hread : ServesImage image read) (off nbytes : Nat) (rc : TqStatus) :
    Rel mirror (fun _ _ => True) (viewOr (tqStoreInitStream bytes read tileBytes) off nbytes rc)
      (viewOr (tqStoreInitMapped image bytes) off nbytes rc) (Mirrors image) := by
  intro t u _
  have hs := viewOr_exec (tqStoreInitStream bytes read tileBytes) off nbytes rc t
  have hm := viewOr_exec (tqStoreInitMapped image bytes) off nbytes rc u
  cases hf : (tqStoreInitStream bytes read tileBytes).fetch off nbytes with
  | none =>
      rw [hf] at hs
      obtain ⟨t', hs⟩ := hs
      rw [hs]
      exact ⟨fun h => (by cases h), False.elim⟩
  | some found =>
      obtain ⟨bs, n⟩ := found
      obtain ⟨rfl, hlen, rfl, hfm⟩ := fetch_mapped_of_stream hread hf
      rw [hf] at hs
      rw [hfm] at hm
      obtain ⟨v, t', hv, hbv⟩ := hs
      obtain ⟨w, u', hw, hbw⟩ := hm
      rw [hv]
      exact ⟨w, u', hw, off, n, hlen, hbv, hbw⟩

/-- **Reads** through two such pointers. -/
theorem deref_mirror (v w : TqView) (k : Nat) :
    Rel mirror (Mirrors image v w) (deref v k) (deref w k) (Alike fun _ _ => True) := by
  rintro t u ⟨off, n, hlen, hv, hw⟩
  rw [hv k]
  by_cases hk : k ≤ n
  · rw [if_pos hk]
    refine ⟨_, u, by rw [hw k, if_pos (by omega)], ?_, trivial⟩
    rw [slice, List.take_take, Nat.min_eq_left hk]
  · rw [if_neg hk]
    exact ⟨fun h => (by cases h), False.elim⟩

theorem liftStatus_mirror {σ τ α : Type} {I : σ → τ → Prop} (x : Except TqStatus α) :
    Rel mirror I (liftStatus x) (liftStatus x) (Alike I) := by
  cases x with
  | ok a => exact Rel.pure fun _ _ h => ⟨rfl, h⟩
  | error rc => exact Rel.throw nofun

/-- A callback that serves an image. -/
def serve (image : List UInt8) (off nbytes : Nat) : Option (List UInt8) :=
  if off + nbytes ≤ image.length then some (slice image off nbytes) else none

theorem servesImage_serve (image : List UInt8) : ServesImage image (serve image) := by
  intro off nbytes bs h
  unfold serve at h
  split at h
  · cases h
    exact ⟨‹_›, rfl⟩
  · cases h

/-! ## Opening a model -/

theorem tqDirLoop_mirror (hread : ServesImage image read) (m : TqModel) :
    ∀ (fuel idx : Nat) (s : TqWalk), Rel mirror (fun _ _ => True)
      (tqDirLoop (tqStoreInitStream bytes read tileBytes) m fuel idx s)
      (tqDirLoop (tqStoreInitMapped image bytes) m fuel idx s) (Alike fun _ _ => True)
  | 0, _, _ => Rel.pure fun _ _ h => ⟨rfl, h⟩
  | fuel + 1, idx, s => by
      unfold tqDirLoop
      refine Rel.ite (fun _ => ?_) fun _ => Rel.pure fun _ _ h => ⟨rfl, h⟩
      refine (viewOr_mirror hread _ _ _).bind fun v w => ?_
      refine (deref_mirror v w _).bind_alike fun dir => ?_
      refine (liftStatus_mirror _).bind_alike fun s => ?_
      exact tqDirLoop_mirror hread m fuel _ s

/-- **Opening**: what opens as a stream opens as an image, as the same model. -/
theorem tqModelOpen_mirror (hread : ServesImage image read) (arena : TqArena) :
    Rel mirror (fun _ _ => True) (tqModelOpen (tqStoreInitStream bytes read tileBytes) arena)
      (tqModelOpen (tqStoreInitMapped image bytes) arena) (Alike fun _ _ => True) := by
  unfold tqModelOpen
  refine (viewOr_mirror hread _ _ _).bind fun v w => ?_
  refine (deref_mirror v w _).bind_alike fun bs => ?_
  refine (liftStatus_mirror _).bind_alike fun _ => ?_
  dsimp only
  cases tqCarve arena 0 _ with
  | none => exact Rel.throw nofun
  | some _ =>
      refine (tqDirLoop_mirror hread _ _ _ _).bind_alike fun s => ?_
      refine (liftStatus_mirror _).bind_alike fun _ => ?_
      exact Rel.pure fun _ _ h => ⟨rfl, h⟩

end Mirror

end TinyLlm
