/-
# `TinyLlm.Forward.Streaming` — a decode step over a streaming store

The step looks at the store through one pointer at a time, so it is mirrored
view by view (`onTile_mirror`).  Only `tq_matvec` differs: mapped, it is one
sweep over `d` rows; streaming, it is one read for as many rows as the tile
holds, and `rowsTo` is what either has done after `k` rows.
-/
import TinyLlm.Ac.Delta
import TinyLlm.Model.Streaming
import TinyLlm.Model.Image
import TinyLlm.Forward.Ops

namespace TinyLlm

open Bytes Relational Loop

section Streaming
variable {F M : Type} [TqMemory F M] (O : FloatOps F) {image : List UInt8}
    {read : Nat → Nat → Option (List UInt8)}
variable {bytes : UInt64} {tileBytes : UInt32}

/-- Equal memory and equal counters; the tiles differ. -/
def SameRun (s t : TqMachine M) : Prop := s.mem = t.mem ∧ s.bytesRead = t.bytesRead

theorem onMem_mirror (op : M → M) :
    Rel mirror (SameRun (M := M)) (onMem op) (onMem op) fun _ _ => SameRun := by
  refine Rel.modify ?_
  rintro s t ⟨hmem, hbytes⟩
  exact ⟨congrArg op hmem, hbytes⟩

theorem onTile_mirror {α β : Type} {P : TqTile → TqTile → Prop} {p : Tq TqTile α} {q : Tq TqTile β}
    {Q : α → β → TqTile → TqTile → Prop} (h : Rel mirror P p q Q) :
    Rel mirror (fun s t : TqMachine M => SameRun s t ∧ P s.tile t.tile) (onTile p) (onTile q)
      fun a b s t => SameRun s t ∧ Q a b s.tile t.tile := by
  rintro s t ⟨hsame, hP⟩
  have hpq := h s.tile t.tile hP
  have hleft : (onTile p : Tq (TqMachine M) α).exec s =
      ((p.exec s.tile).1, { s with tile := (p.exec s.tile).2 }) := rfl
  have hright : (onTile q : Tq (TqMachine M) β).exec t =
      ((q.exec t.tile).1, { t with tile := (q.exec t.tile).2 }) := rfl
  rw [hleft, hright]
  rcases hp : p.exec s.tile with ⟨e | a, s'⟩
  · rw [hp] at hpq
    exact ⟨hpq.1, False.elim⟩
  · rw [hp] at hpq
    obtain ⟨b, t', hq, hQ⟩ := hpq
    rw [hq]
    exact ⟨b, _, rfl, hsame, hQ⟩

/-- A view, and bytes read through it at once. -/
theorem viewed_mirror (hread : ServesImage image read) (off n k : Nat) (rc : TqStatus) {α β : Type}
    {f : List UInt8 → Tq (TqMachine M) α} {g : List UInt8 → Tq (TqMachine M) β}
    {R : α → β → TqMachine M → TqMachine M → Prop}
    (h : ∀ bs, Rel mirror (SameRun (M := M)) (f bs) (g bs) R) :
    Rel mirror SameRun
      (onTile (viewOr (tqStoreInitStream bytes read tileBytes) off n rc) >>= fun v =>
        onTile (deref v k) >>= f)
      (onTile (viewOr (tqStoreInitMapped image bytes) off n rc) >>= fun v =>
        onTile (deref v k) >>= g) R := by
  refine Rel.bind ((onTile_mirror (viewOr_mirror hread off n rc)).conseq
    (fun _ _ h => ⟨h, trivial⟩) fun _ _ _ _ h => h) fun v w => ?_
  refine Rel.bind (onTile_mirror (deref_mirror v w k)) fun a b => ?_
  rintro s t ⟨hsame, rfl, _⟩
  exact h a s t hsame

theorem tqRowToFloat_mirror (hread : ServesImage image read) (baseOff dtype n row : Nat)
    (out : TqBuf) :
    Rel mirror (SameRun (M := M))
      (tqRowToFloat O (tqStoreInitStream bytes read tileBytes) baseOff dtype n row out)
      (tqRowToFloat O (tqStoreInitMapped image bytes) baseOff dtype n row out)
        fun _ _ => SameRun := by
  unfold tqRowToFloat
  dsimp only
  refine Rel.ite (fun _ => Rel.throw_bind nofun) fun _ => ?_
  exact viewed_mirror hread _ _ _ _ fun bs => onMem_mirror _

theorem tqNorm_mirror (hread : ServesImage image read) (out x : TqBuf) (wOff n : Nat) (eps : F) :
    Rel mirror (SameRun (M := M))
      (tqNorm O (tqStoreInitStream bytes read tileBytes) out x wOff n eps)
      (tqNorm O (tqStoreInitMapped image bytes) out x wOff n eps) fun _ _ => SameRun := by
  unfold tqNorm
  exact viewed_mirror hread _ _ _ _ fun bs => onMem_mirror _

/-! ## Matrices -/

section Rows
variable (out : TqBuf) (wOff dtype rowBytes nb : Nat) (xq : TqQuant)

/-- The output of row `r` of a matrix in an image. -/
def rowInto (image : List UInt8) (r : Nat) (mem : M) : M :=
  TqMemory.put mem (.f out r)
    (rowDot O dtype (slice image (wOff + rowBytes * r) rowBytes) (TqMemory.blk mem xq) nb)

/-- The first `k` rows. -/
def rowsTo (image : List UInt8) (k : Nat) (mem : M) : M :=
  forUp k (rowInto O out wOff dtype rowBytes nb xq image) mem

/-- A chunk of rows is the rows that it holds. -/
theorem tqDotRows_slice (image : List UInt8) (i n : Nat) (mem : M) :
    tqDotRows O out dtype rowBytes nb xq
      (slice image (wOff + rowBytes * i) (rowBytes * n)) i n mem =
      forUp n (fun r => rowInto O out wOff dtype rowBytes nb xq image (i + r)) mem := by
  refine forUp_congr mem fun r hr mem => ?_
  have hin : r * rowBytes + rowBytes ≤ rowBytes * n := by
    rw [← Nat.succ_mul, Nat.mul_comm rowBytes n]
    exact Nat.mul_le_mul_right rowBytes hr
  unfold rowInto
  rw [slice_slice hin]
  congr 3
  ring

theorem onTile_triple {α : Type} {I : M → Nat → Prop} {P : TqTile → Prop} {p : Tq TqTile α}
    {Q : α → TqTile → Prop} {bad : Fault → Prop} (h : Triple bad P p Q) :
    Triple bad (fun s : TqMachine M => I s.mem s.bytesRead ∧ P s.tile) (onTile p)
      fun a s => I s.mem s.bytesRead ∧ Q a s.tile := by
  rintro s ⟨hI, hP⟩
  have hp := h s.tile hP
  have hexec : (onTile p : Tq (TqMachine M) α).exec s =
      ((p.exec s.tile).1, { s with tile := (p.exec s.tile).2 }) := rfl
  rw [hexec]
  rcases hps : p.exec s.tile with ⟨e | a, t'⟩
  · rw [hps] at hp
    exact hp
  · rw [hps] at hp
    exact ⟨hI, hp⟩

/-- **The streaming loop** does each row once: from row `i` on it adds the rows
from `i` to `d`, and they all lie in the image. -/
theorem tqMatvecLoop_stream (hread : ServesImage image read) (himage : image.length < 2 ^ 64)
    (hdtype : dtype = tqDtQ40 ∨ dtype = tqDtQ80) {d rowsPerTile : Nat} (hrows : 0 < rowsPerTile)
    (htile : rowBytes * rowsPerTile < 2 ^ 32) (mem₀ : M) (n₀ : Nat) :
    ∀ (fuel i : Nat), d ≤ i + fuel → i ≤ d → wOff + rowBytes * i < 2 ^ 64 →
      (i = d → wOff + rowBytes * d ≤ image.length) →
      Triple (· = Fault.stale)
        (fun s : TqMachine M => s.mem = rowsTo O out wOff dtype rowBytes nb xq image i mem₀ ∧
        s.bytesRead = n₀)
        (tqMatvecLoop O (tqStoreInitStream bytes read tileBytes) out wOff dtype rowBytes nb d
          rowsPerTile xq fuel i)
        fun _ s => wOff + rowBytes * d ≤ image.length ∧
          s.mem = rowsTo O out wOff dtype rowBytes nb xq image d mem₀ ∧ s.bytesRead = n₀
  | 0, i, hfuel, hi, _, hend => by
      obtain rfl : i = d := Nat.le_antisymm hi hfuel
      exact Triple.pure fun s hs => ⟨hend rfl, hs⟩
  | fuel + 1, i, hfuel, hi, hoff, hend => by
      rw [tqMatvecLoop]
      by_cases hlt : i < d
      · rw [if_pos hlt]
        dsimp only
        have hpos : 0 < min (d - i) rowsPerTile := Nat.lt_min.mpr ⟨by omega, hrows⟩
        have hle : min (d - i) rowsPerTile ≤ d - i := Nat.min_le_left _ _
        have hfit : rowBytes * min (d - i) rowsPerTile < 2 ^ 32 :=
          (Nat.mul_le_mul_left rowBytes (Nat.min_le_right _ _)).trans_lt htile
        revert hpos hle hfit
        generalize min (d - i) rowsPerTile = chunk
        intro hpos hle hfit
        rw [Nat.mod_eq_of_lt hoff, Nat.mod_eq_of_lt hfit]
        refine Triple.bind ((onTile_triple (I := fun mem n =>
            mem = rowsTo O out wOff dtype rowBytes nb xq image i mem₀ ∧ n = n₀)
          (viewOr_stream hread _ _ _)).conseq (fun _ h => ⟨h, trivial⟩) fun _ _ h => h) fun v => ?_
        rw [if_neg (by rcases hdtype with rfl | rfl <;> decide)]
        rintro s ⟨⟨hmem, hbytes⟩, hin, hbehind⟩
        have hderef : (onTile (deref v (rowBytes * chunk)) : Tq (TqMachine M) _).exec s =
            (.ok (slice image (wOff + rowBytes * i) (rowBytes * chunk)), s) := by
          have hslice : (slice image (wOff + rowBytes * i) (rowBytes * chunk)).take
              (rowBytes * chunk) =
              slice image (wOff + rowBytes * i) (rowBytes * chunk) := by
            rw [slice, List.take_take, Nat.min_self]
          have hexec : (onTile (deref v (rowBytes * chunk)) : Tq (TqMachine M) _).exec s =
              (((deref v (rowBytes * chunk)).exec s.tile).1,
                { s with tile := ((deref v (rowBytes * chunk)).exec s.tile).2 }) := rfl
          rw [hexec, hbehind _, if_pos (Nat.le_refl _), hslice]
        have hnext : wOff + rowBytes * (i + chunk) ≤ image.length := by
          rw [Nat.mul_add, ← Nat.add_assoc]
          exact hin
        have hstep : (onMem (tqDotRows O out dtype rowBytes nb xq
            (slice image (wOff + rowBytes * i) (rowBytes * chunk)) i chunk)).exec s = (.ok (),
              { s with mem := rowsTo O out wOff dtype rowBytes nb xq image (i + chunk) mem₀ }) := by
          unfold onMem
          rw [exec_modify, tqDotRows_slice, hmem, rowsTo, rowsTo, forUp_add]
        rw [exec_bind_ok hderef, exec_bind_ok hstep]
        exact tqMatvecLoop_stream hread himage hdtype hrows htile mem₀ n₀ fuel
          (i + chunk) (by omega)
          (by omega) (hnext.trans_lt himage) (fun h => h ▸ hnext) _ ⟨rfl, hbytes⟩
      · rw [if_neg hlt]
        obtain rfl : i = d := Nat.le_antisymm hi (Nat.not_lt.mp hlt)
        exact Triple.pure fun s hs => ⟨hend rfl, hs⟩

/-- **Matrices**: the streamed product is the mapped one. -/
theorem tqMatvec_mirror (hread : ServesImage image read) (hbytes : bytes.toNat = image.length)
    (hdtype : dtype = tqDtQ40 ∨ dtype = tqDtQ80) (hoff : wOff < 2 ^ 64) {n d : Nat} (hd : 0 < d) :
    Rel mirror (SameRun (M := M))
      (tqMatvec O (tqStoreInitStream bytes read tileBytes) out wOff dtype n d xq)
      (tqMatvec O (tqStoreInitMapped image bytes) out wOff dtype n d xq) fun _ _ => SameRun := by
  unfold tqMatvec
  dsimp only [tqStoreInitStream, tqStoreInitMapped]
  refine Rel.ite (fun _ => Rel.throw_bind nofun) fun hrow => ?_
  obtain ⟨hrow, _⟩ := not_or.mp hrow
  revert hrow
  generalize tqDtypeNbytes dtype n = rowBytes
  intro hrow
  have hcount : ∀ s t : TqMachine M, SameRun s t →
      SameRun { s with bytesRead := (s.bytesRead + rowBytes * d) % 2 ^ 64 }
        { t with bytesRead := (t.bytesRead + rowBytes * d) % 2 ^ 64 } :=
    fun s t h => ⟨h.1, by rw [h.2]⟩
  refine Rel.seq (Rel.modify hcount) ?_
  refine Rel.of_triple fun t => ?_
  by_cases hfits : tileBytes.toNat < rowBytes
  · rw [if_pos hfits]
    exact (Triple.throw (Q := fun _ _ => False) nofun).bind fun _ _ h => h.elim
  · rw [if_neg hfits]
    have htile : rowBytes * (tileBytes.toNat / rowBytes) < 2 ^ 32 :=
      (Nat.mul_div_le _ _).trans_lt tileBytes.toNat_lt
    have hrows : 0 < tileBytes.toNat / rowBytes :=
      Nat.div_pos (Nat.not_lt.mp hfits) (Nat.pos_of_ne_zero hrow)
    refine (tqMatvecLoop_stream O out wOff dtype rowBytes (n / tqGroupSize) xq
      hread (hbytes ▸ bytes.toNat_lt) hdtype hrows htile t.mem t.bytesRead d 0 (Nat.le_add_left d 0)
      (Nat.zero_le d) hoff fun h => absurd h hd.ne).conseq (fun _ h => h) fun _ s hs => ?_
    obtain ⟨hin, hmem, hcount⟩ := hs
    have hinside : ¬ (wOff + rowBytes * d) % 2 ^ 64 > bytes.toNat :=
      Nat.not_lt.mpr ((Nat.mod_le _ _).trans (hbytes ▸ hin))
    simp only [hinside, if_false]
    rw [if_neg (by rcases hdtype with rfl | rfl <;> decide)]
    have hderef : (onTile (deref (.direct (image.drop wOff)) (rowBytes * d)) : Tq
        (TqMachine M) _).exec t =
        (.ok (slice image wOff (rowBytes * d)), t) := by
      have hbehind := behind_direct (image.drop wOff) t.tile (rowBytes * d)
      rw [List.length_drop, if_pos (by omega)] at hbehind
      have hexec : (onTile (deref (.direct (image.drop wOff)) (rowBytes * d)) : Tq
          (TqMachine M) _).exec t =
          (((deref (.direct (image.drop wOff)) (rowBytes * d)).exec t.tile).1,
            { t with tile := ((deref (.direct (image.drop wOff)) (rowBytes * d)).exec
              t.tile).2 }) := rfl
      rw [hexec, hbehind]
      rfl
    have hall := tqDotRows_slice O out wOff dtype rowBytes (n / tqGroupSize) xq image 0 d t.mem
    rw [Nat.mul_zero, Nat.add_zero] at hall
    refine ⟨(), _, (exec_bind_ok hderef).trans (exec_modify _ _), ?_, hcount⟩
    rw [hmem]
    refine Eq.trans ?_ hall.symm
    exact forUp_congr _ fun i _ mem => by rw [Nat.zero_add]

end Rows

/-! ## The step -/

section Step
variable {m : TqModel} (rt : TqRuntime)

/-- What the proof needs of a model: quantized, not empty, offsets of 64 bits. -/
structure Readable (m : TqModel) : Prop where
  sized : m.Sized
  layers_lt : ∀ l s, m.layers l s < 2 ^ 64
  classifier_lt : m.classifier < 2 ^ 64

theorem tqForward_mirror (hread : ServesImage image read) (hbytes : bytes.toNat = image.length)
    (hm : Readable m) (token pos : Int) :
    Rel mirror (SameRun (M := M))
      (tqForward O (tqStoreInitStream bytes read tileBytes) m rt token pos)
      (tqForward O (tqStoreInitMapped image bytes) m rt token pos) fun _ _ => SameRun := by
  have hkv : 0 < m.kvDim := by
    rw [hm.sized.kv]
    exact Nat.mul_pos hm.sized.headSize_pos hm.sized.nKvHeads_pos
  have hmat : ∀ (out : TqBuf) (wOff n d : Nat) (xq : TqQuant), wOff < 2 ^ 64 → 0 < d →
      Rel mirror (SameRun (M := M)) (tqMatvec O (tqStoreInitStream bytes read tileBytes) out wOff
        m.qtype n d xq) (tqMatvec O (tqStoreInitMapped image bytes) out wOff m.qtype n d xq)
        fun _ _ => SameRun :=
    fun out wOff n d xq hoff hd => tqMatvec_mirror O out wOff m.qtype xq hread hbytes
      hm.sized.quantized hoff hd
  have hop : ∀ op : M → M, Rel mirror (SameRun (M := M)) (onMem op) (onMem op) fun _ _ => SameRun :=
    onMem_mirror
  have hatt : ∀ l invSqrtHs, Rel mirror (SameRun (M := M))
      (tqAttention O (tqStoreInitStream bytes read tileBytes) m rt l pos.toNat invSqrtHs)
      (tqAttention O (tqStoreInitMapped image bytes) m rt l pos.toNat invSqrtHs)
      fun _ _ => SameRun := by
    intro l invSqrtHs
    unfold tqAttention
    exact (tqNorm_mirror O hread _ _ _ _ _).seq <| (hop _).seq <|
      (hmat _ _ _ _ _ (hm.layers_lt l _) hm.sized.dim_pos).seq <|
      (hmat _ _ _ _ _ (hm.layers_lt l _) hkv).seq <| (hmat _ _ _ _ _ (hm.layers_lt l _) hkv).seq <|
      (hop _).seq <| (hop _).seq <| (hop _).seq <| (hop _).seq <| (hop _).seq <|
      (hmat _ _ _ _ _ (hm.layers_lt l _) hm.sized.dim_pos).seq <| hop _
  have hffn : ∀ l, Rel mirror (SameRun (M := M))
      (tqFeedForward O (tqStoreInitStream bytes read tileBytes) m l)
      (tqFeedForward O (tqStoreInitMapped image bytes) m l) fun _ _ => SameRun := by
    intro l
    unfold tqFeedForward
    exact (tqNorm_mirror O hread _ _ _ _ _).seq <| (hop _).seq <|
      (hmat _ _ _ _ _ (hm.layers_lt l _) hm.sized.hiddenDim_pos).seq <|
      (hmat _ _ _ _ _ (hm.layers_lt l _) hm.sized.hiddenDim_pos).seq <| (hop _).seq <|
      (hop _).seq <|
      (hmat _ _ _ _ _ (hm.layers_lt l _) hm.sized.dim_pos).seq <| hop _
  unfold tqForward
  refine Rel.ite (fun _ => Rel.throw nofun) fun _ => ?_
  refine Rel.ite (fun _ => Rel.throw nofun) fun _ => ?_
  unfold tqForwardAt
  exact (tqRowToFloat_mirror O hread _ _ _ _ _).seq <| (hop _).seq <|
    (Rel.forUpTo fun l _ => (hatt l _).seq (hffn l)).seq <| (tqNorm_mirror O hread _ _ _ _ _).seq <|
    (hop _).seq <| hmat _ _ _ _ _ hm.classifier_lt hm.sized.vocabSize_pos

/-- What the caller of a step gets to see: the status, the memory with the
logits and the cache in it, and the counter. -/
def seen (r : Except Fault Unit × TqMachine M) : Except Fault Unit × M × Nat :=
  (r.1, r.2.mem, r.2.bytesRead)

/-- No call of a run on the streaming store looks at an overwritten tile. -/
theorem tqFeed_not_stale (hread : ServesImage image read) (hbytes : bytes.toNat = image.length)
    (hm : Readable m) : ∀ (calls : List (Int × Int)) (s : TqMachine M),
      ∀ r ∈ tqFeed O (tqStoreInitStream bytes read tileBytes) m rt calls s, r.1 ≠ .error .stale
  | [], _, _, hr => nomatch hr
  | (token, pos) :: calls, s, r, hr => by
      rw [tqFeed] at hr
      rcases List.mem_cons.mp hr with rfl | hr
      · intro h
        exact (tqForward_mirror O rt hread hbytes hm token pos).not_bad (t := s) ⟨rfl, rfl⟩ h rfl
      · exact tqFeed_not_stale hread hbytes hm calls _ r hr

/-- **Runs**: where all calls on the streaming store return, those on the
mapped one return with the same. -/
theorem tqFeed_mirror (hread : ServesImage image read) (hbytes : bytes.toNat = image.length)
    (hm : Readable m) : ∀ (calls : List (Int × Int)) (s t : TqMachine M), SameRun s t →
      (∀ r ∈ tqFeed O (tqStoreInitStream bytes read tileBytes) m rt calls s, r.1 = .ok ()) →
      (tqFeed O (tqStoreInitMapped image bytes) m rt calls t).map seen =
        (tqFeed O (tqStoreInitStream bytes read tileBytes) m rt calls s).map seen
  | [], _, _, _, _ => rfl
  | (token, pos) :: calls, s, t, hsame, hok => by
      rw [tqFeed] at hok
      obtain ⟨hhead, hrest⟩ := List.forall_mem_cons.mp hok
      obtain ⟨_, t', hq, hsame'⟩ :=
        (tqForward_mirror O rt hread hbytes hm token pos).of_ok hsame hhead
      have hrun : (tqFeed O (tqStoreInitMapped image bytes) m rt calls
          ((tqForward O (tqStoreInitMapped image bytes) m rt token pos).exec t).2).map seen =
            (tqFeed O (tqStoreInitStream bytes read tileBytes) m rt calls
              ((tqForward O (tqStoreInitStream bytes read tileBytes) m rt token pos).exec s).2).map
                seen := by
        rw [hq]
        exact tqFeed_mirror hread hbytes hm calls _ _ hsame' hrest
      have hseen : seen ((tqForward O (tqStoreInitMapped image bytes) m rt token pos).exec t) =
          seen ((tqForward O (tqStoreInitStream bytes read tileBytes) m rt token pos).exec s) := by
        unfold seen
        rw [hhead, hq, hsame'.1, hsame'.2]
      rw [tqFeed, tqFeed, List.map_cons, List.map_cons, hseen, hrun]

end Step

/-- **A streaming store stands for the mapped one.** -/
theorem streaming_eq_mapped (hread : ServesImage image read) (hbytes : bytes.toNat = image.length)
    (arena : TqArena) (t u : TqTile) :
    ((tqModelOpen (tqStoreInitStream bytes read tileBytes) arena).exec t).1 ≠ .error .stale ∧
    ∀ m t', (tqModelOpen (tqStoreInitStream bytes read tileBytes) arena).exec t = (.ok m, t') →
      (∃ u', (tqModelOpen (tqStoreInitMapped image bytes) arena).exec u = (.ok m, u')) ∧
      ∀ (rt : TqRuntime) (calls : List (Int × Int)) (s s' : TqMachine M), SameRun s s' →
        (∀ r ∈ tqFeed O (tqStoreInitStream bytes read tileBytes) m rt calls s, r.1 ≠
        .error .stale) ∧
        ((∀ r ∈ tqFeed O (tqStoreInitStream bytes read tileBytes) m rt calls s, r.1 = .ok ()) →
          (tqFeed O (tqStoreInitMapped image bytes) m rt calls s').map seen =
            (tqFeed O (tqStoreInitStream bytes read tileBytes) m rt calls s).map seen) := by
  refine ⟨fun h => (tqModelOpen_mirror hread arena).not_bad (t := u) trivial h rfl, ?_⟩
  intro m t' hopen
  obtain ⟨m', u', hmapped, rfl, _⟩ :=
    (tqModelOpen_mirror hread arena).of_ok (t := u) trivial (congrArg Prod.fst hopen)
  have hacc := (tqModelOpen_mapped.mp hmapped).1
  have hm : Readable m := ⟨tqModelOpen_sized hopen, hacc.layers_lt, hacc.classifier_lt⟩
  refine ⟨⟨u', hmapped⟩, fun rt calls s s' hsame => ⟨?_, ?_⟩⟩
  · exact tqFeed_not_stale O rt hread hbytes hm calls s
  · exact tqFeed_mirror O rt hread hbytes hm calls s s' hsame

end Streaming

/-- The model of a small image, and its store. -/
def sampleModel : TqModel :=
  tqResolve (imageDims (sampleImage 60 4 0 1080)) (imageWalk (sampleImage 60 4 0 1080))

def sampleStore : TqStore := tqStoreInitMapped (sampleImage 60 4 0 1080) 2040

/-- Its arenas. -/
def sampleFast : TqArena := ⟨0x20001000, 4096, 2 ^ 32⟩

def sampleCache : TqArena := ⟨0x70000001, 4096, 2 ^ 32⟩

theorem sampleModel_opens :
    (tqModelOpen sampleStore ⟨0, 1000, 2 ^ 64⟩).exec ⟨0, []⟩ = (.ok sampleModel, ⟨0, []⟩) := by
  obtain ⟨m, hopen⟩ := sample_opens
  obtain rfl : m = sampleModel := (tqModelOpen_mapped.mp hopen).1.model
  exact hopen

set_option maxRecDepth 20000 in
theorem sampleModel_init (kv : Bool) (maxSeq : Fin 4) : ∃ rt,
    tqRuntimeInit sampleModel (maxSeq + 1 : Nat) (if kv then 1 else 0) sampleFast
      sampleCache = .ok rt ∧
      rt.maxSeq = maxSeq + 1 ∧ rt.kvDtype = if kv then .q8 else .f32 := by
  have hall : ∀ kv : Bool, ∀ maxSeq : Fin 4, (tqRuntimeInit sampleModel (maxSeq + 1 : Nat)
      (if kv then 1 else 0) sampleFast sampleCache).toOption.map
        (fun rt => (rt.maxSeq, rt.kvDtype)) =
        some ((maxSeq : Nat) + 1, if kv then TqKv.q8 else .f32) := by decide
  have hok := hall kv maxSeq
  cases hrt : tqRuntimeInit sampleModel (maxSeq + 1 : Nat) (if kv then 1 else 0) sampleFast
    sampleCache with
  | ok rt =>
      rw [hrt] at hok
      obtain ⟨hseq, hkv⟩ := Prod.mk.inj (Option.some.inj hok)
      exact ⟨rt, rfl, hseq, hkv⟩
  | error rc =>
      rw [hrt] at hok
      cases hok

/-- Two tokens in exact arithmetic, by a runtime with a byte cache, over a small
model whose classifier takes two reads. -/
theorem streaming_eq_mapped_sample : ∃ rt,
    tqRuntimeInit sampleModel 4 1 sampleFast sampleCache = .ok rt ∧
    (∃ u, (tqModelOpen sampleStore ⟨0, 1000, 2 ^ 64⟩).exec ⟨0, []⟩ = (.ok sampleModel, u)) ∧
    (tqFeed ratOps sampleStore sampleModel rt [(1, 0), (0, 1)] (TqMachine.zeroed ratOps)).map seen =
      (tqFeed ratOps (tqStoreInitStream 2040 (serve (sampleImage 60 4 0 1080)) 1024) sampleModel rt
        [(1, 0), (0, 1)] (TqMachine.zeroed ratOps)).map seen := by
  have hlen : (2040 : UInt64).toNat = (sampleImage 60 4 0 1080).length := by decide +kernel
  have hopen : ((tqModelOpen (tqStoreInitStream 2040 (serve (sampleImage 60 4 0 1080)) 1024)
      ⟨0, 1000, 2 ^ 64⟩).exec ⟨0, []⟩).1.isOk = true := by decide +kernel
  have hfeed : ∀ r ∈ (tqFeed ratOps (tqStoreInitStream 2040 (serve (sampleImage 60 4 0 1080)) 1024)
      sampleModel ⟨4, .q8, [], []⟩ [(1, 0), (0, 1)] (TqMachine.zeroed ratOps)).map Prod.fst,
        r = .ok () := by decide +kernel
  obtain ⟨rt, hrt, hseq, hkv⟩ := sampleModel_init true 3
  rw [@tqFeed_runtime _ ratOps _ _ _ sampleModel rt ⟨4, .q8, [], []⟩ hseq hkv] at hfeed
  rcases hres : (tqModelOpen (tqStoreInitStream 2040 (serve (sampleImage 60 4 0 1080)) 1024)
      ⟨0, 1000, 2 ^ 64⟩).exec ⟨0, []⟩ with ⟨e | m, t'⟩
  · rw [hres] at hopen
    cases hopen
  · obtain ⟨⟨u, hu⟩, hruns⟩ := (streaming_eq_mapped ratOps (servesImage_serve _) hlen
      ⟨0, 1000, 2 ^ 64⟩ ⟨0, []⟩ ⟨0, []⟩).2 m t' hres
    obtain rfl : m = sampleModel := (tqModelOpen_mapped.mp hu).1.model
    refine ⟨rt, hrt, ⟨u, hu⟩, (hruns _ _ _ _ ⟨rfl, rfl⟩).2 fun r hr => ?_⟩
    exact hfeed r.1 (List.mem_map_of_mem hr)

end TinyLlm
