/-
# `TinyLlm.Forward.Tile` — how large the tile has to be

The tile of a streaming store is documented as one row of a weight matrix.
Opening a model also reads its directory through it, 32 entries at a time, and
a norm reads `dim` floats at once, which are longer than a quantized row.  So
with a callback that never fails an exported model opens, and a step returns if
and only if the tile holds the floats of a norm (`writeModel_tile`).
-/
import TinyLlm.Forward.Streaming
import TinyLlm.Forward.Arena

namespace TinyLlm

open Bytes Relational

/-! ## A callback that never fails -/

/-- The callback succeeds on every range of the image. -/
def Supplies (image : List UInt8) (read : Nat → Nat → Option (List UInt8)) : Prop :=
  ∀ off nbytes, off + nbytes ≤ image.length → read off nbytes = some (slice image off nbytes)

theorem supplies_serve (image : List UInt8) : Supplies image (serve image) :=
  fun _ _ h => if_pos h

section Stream
variable {image : List UInt8} {read : Nat → Nat → Option (List UInt8)}
variable {bytes : UInt64} {tileBytes : UInt32}

/-- A range of the image that fits the tile is found. -/
theorem fetch_supplied (hread : Supplies image read)
    (hbytes : bytes.toNat = image.length) {off n : Nat} (hin : off + n ≤ image.length)
    (hfit : n ≤ tileBytes.toNat) :
    (tqStoreInitStream bytes read tileBytes).fetch off n = some (slice image off n, n) := by
  have hlt : off + n < 2 ^ 64 := hin.trans_lt (hbytes ▸ bytes.toNat_lt)
  unfold tqStoreInitStream TqStore.fetch
  rw [Nat.mod_eq_of_lt hlt, if_neg (Nat.not_lt.mpr (hbytes ▸ hin))]
  dsimp only
  rw [if_neg (Nat.not_lt.mpr hfit), hread off n hin]
  rfl

/-- What is found fits the tile. -/
theorem fetch_fits {off n k : Nat} {bs : List UInt8}
    (h : (tqStoreInitStream bytes read tileBytes).fetch off n = some (bs, k)) :
    k = n ∧ n ≤ tileBytes.toNat := by
  unfold tqStoreInitStream TqStore.fetch at h
  split at h
  · cases h
  · dsimp only at h
    split at h
    · cases h
    · next hfit =>
        obtain ⟨cs, -, heq⟩ := Option.map_eq_some_iff.mp h
        cases heq
        exact ⟨rfl, Nat.not_lt.mp hfit⟩

/-! ## Opening -/

/-- Where the left program returns, so does the right one. -/
def follows : Mode Fault := Mode.refine fun _ => False

/-- **A read of a streaming store.** -/
theorem streamed_read (hread : Supplies image read)
    (hbytes : bytes.toNat = image.length) {off n : Nat} (hin : off + n ≤ image.length)
    (hfit : n ≤ tileBytes.toNat) (rc : TqStatus) {β : Type} (k : List UInt8 → Tq TqTile β)
    (t : TqTile) :
    ∃ t', (viewOr (tqStoreInitStream bytes read tileBytes) off n rc >>=
      fun v => deref v n >>= k).exec t =
      (k (slice image off n)).exec t' := by
  have hview := viewOr_exec (tqStoreInitStream bytes read tileBytes) off n rc t
  rw [fetch_supplied hread hbytes hin hfit] at hview
  obtain ⟨v, t', hv, hbehind⟩ := hview
  refine ⟨t', ?_⟩
  have hderef := hbehind n
  rw [if_pos (Nat.le_refl n), List.take_of_length_le (length_slice hin).le] at hderef
  rw [exec_bind_ok hv, exec_bind_ok hderef]

/-- What the image gives, the stream gives, if the tile holds it. -/
theorem viewed_follows (hread : Supplies image read)
    (hbytes : bytes.toNat = image.length) {off n : Nat} (hoff : off + n < 2 ^ 64)
    (hfit : n ≤ tileBytes.toNat) {rc : TqStatus} {α β : Type} {f : List UInt8 → Tq TqTile α}
    {g : List UInt8 → Tq TqTile β} {R : α → β → TqTile → TqTile → Prop}
    (h : ∀ bs, Rel follows (fun _ _ => True) (f bs) (g bs) R) :
    Rel follows (fun _ _ => True)
      (viewOr (tqStoreInitMapped image bytes) off n rc >>= fun v => deref v n >>= f)
      (viewOr (tqStoreInitStream bytes read tileBytes) off n rc >>= fun v =>
        deref v n >>= g) R := by
  intro t u _
  rcases hm : (viewOr (tqStoreInitMapped image bytes) off n rc >>=
    fun v => deref v n >>= f).exec t with
    ⟨e | a, t'⟩
  · exact ⟨id, False.elim⟩
  · obtain ⟨hin, hlen, hf⟩ := mapped_read.mp hm
    rw [Nat.mod_eq_of_lt hoff, hbytes] at hin
    obtain ⟨u', hs⟩ := streamed_read hread hbytes hin hfit rc g u
    have hfg := h (slice image off n) t u' trivial
    rw [hf] at hfg
    rw [hs]
    exact hfg

theorem liftStatus_follows {σ τ α : Type} {I : σ → τ → Prop} (x : Except TqStatus α) :
    Rel follows I (liftStatus x) (liftStatus x) (Alike I) := by
  cases x with
  | ok a => exact Rel.pure fun _ _ h => ⟨rfl, h⟩
  | error rc => exact Rel.throw id

theorem tqDirLoop_follows (hread : Supplies image read) (hbytes : bytes.toNat = image.length)
    (htile : 2048 ≤ tileBytes.toNat) {m : TqModel} (hoff : m.hdr.tensorTableOffset < 2 ^ 32)
    (hcount : m.hdr.tensorCount < 2 ^ 32) : ∀ (fuel idx : Nat) (s : TqWalk),
      Rel follows (fun _ _ => True) (tqDirLoop (tqStoreInitMapped image bytes) m fuel idx s)
        (tqDirLoop (tqStoreInitStream bytes read tileBytes) m fuel idx s) (Alike fun _ _ => True)
  | 0, _, _ => Rel.pure fun _ _ h => ⟨rfl, h⟩
  | fuel + 1, idx, s => by
      unfold tqDirLoop
      refine Rel.ite (fun hlt => ?_) fun _ => Rel.pure fun _ _ h => ⟨rfl, h⟩
      have hchunk : min (m.hdr.tensorCount - idx) tqDirChunk * tqEntryBytes ≤ 2048 :=
        Nat.mul_le_mul_right tqEntryBytes (Nat.min_le_right _ _)
      refine viewed_follows hread hbytes ?_ (hchunk.trans htile) fun dir => ?_
      · unfold tqEntryBytes at *
        omega
      · refine (liftStatus_follows _).bind_alike fun s => ?_
        exact tqDirLoop_follows hread hbytes htile hoff hcount fuel _ s

/-- **Opening**: what opens as an image opens as a stream, as the same model. -/
theorem tqModelOpen_follows (hread : Supplies image read) (hbytes : bytes.toNat = image.length)
    (htile : 2048 ≤ tileBytes.toNat) (arena : TqArena) :
    Rel follows (fun _ _ => True) (tqModelOpen (tqStoreInitMapped image bytes) arena)
      (tqModelOpen (tqStoreInitStream bytes read tileBytes) arena) (Alike fun _ _ => True) := by
  unfold tqModelOpen
  refine viewed_follows hread hbytes (by decide) ((by decide : tqHeaderBytes ≤ 2048).trans htile)
    fun bs => ?_
  refine (liftStatus_follows _).bind_alike fun _ => ?_
  dsimp only
  cases tqCarve arena 0 _ with
  | none => exact Rel.throw id
  | some _ =>
      refine (tqDirLoop_follows hread hbytes htile (leAt_lt bs 20 4) (leAt_lt bs 16 4) _
        _ _).bind_alike fun s => ?_
      refine (liftStatus_follows _).bind_alike fun _ => ?_
      exact Rel.pure fun _ _ h => ⟨rfl, h⟩

theorem Accepted.opens (hread : Supplies image read) (hbytes : bytes.toNat = image.length)
    (htile : 2048 ≤ tileBytes.toNat) {arena : TqArena} {m : TqModel}
    (h : Accepted image bytes arena m) (t : TqTile) :
    ∃ t', (tqModelOpen (tqStoreInitStream bytes read tileBytes) arena).exec t = (.ok m, t') := by
  have hmapped := (@tqModelOpen_mapped image bytes arena t t m).mpr ⟨h, rfl⟩
  obtain ⟨_, t', hs, rfl, -⟩ :=
    (tqModelOpen_follows hread hbytes htile arena).of_ok (t := t) trivial
      (congrArg Prod.fst hmapped)
  exact ⟨t', hs⟩

/-! ## A step -/

section Step
variable {F M : Type} [TqMemory F M] (O : FloatOps F)

/-- A view that the tile holds, used before the next one. -/
theorem view_returns (hread : Supplies image read)
    (hbytes : bytes.toNat = image.length) {off n : Nat} (hin : off + n ≤ image.length)
    (hfit : n ≤ tileBytes.toNat) {rc : TqStatus} {α : Type} {f : TqView → Tq (TqMachine M) α}
    (hf : ∀ v (s : TqMachine M), Behind (slice image off n) n v s.tile → ∃ a s', (f v).exec s =
      (.ok a, s')) :
    Returns (onTile (viewOr (tqStoreInitStream bytes read tileBytes) off n rc) >>= f) := by
  intro s
  have hview := viewOr_exec (tqStoreInitStream bytes read tileBytes) off n rc s.tile
  rw [fetch_supplied hread hbytes hin hfit] at hview
  obtain ⟨v, t', hv, hbehind⟩ := hview
  have hexec := onTile_exec (viewOr (tqStoreInitStream bytes read tileBytes) off n rc) s
  rw [hv] at hexec
  rw [exec_bind_ok hexec]
  exact hf v _ hbehind

theorem deref_behind {bs : List UInt8} {n : Nat} {v : TqView} {s : TqMachine M}
    (h : Behind bs n v s.tile) :
    (onTile (deref v n) : Tq (TqMachine M) _).exec s = (.ok (bs.take n), s) := by
  rw [onTile_exec, h n, if_pos (Nat.le_refl n)]

theorem viewed_returns (hread : Supplies image read)
    (hbytes : bytes.toNat = image.length) {off n : Nat} (hin : off + n ≤ image.length)
    (hfit : n ≤ tileBytes.toNat) {rc : TqStatus} {α : Type} {f : List UInt8 → Tq (TqMachine M) α}
    (hf : ∀ bs, Returns (f bs)) :
    Returns (onTile (viewOr (tqStoreInitStream bytes read tileBytes) off n rc) >>= fun v =>
      onTile (deref v n) >>= f) := by
  refine view_returns hread hbytes hin hfit fun v s hbehind => ?_
  rw [exec_bind_ok (deref_behind hbehind)]
  exact hf _ s

theorem onMem_returns (op : M → M) : Returns (onMem op) := Returns.modify _

theorem tqNorm_returns (hread : Supplies image read) (hbytes : bytes.toNat = image.length)
    (out src : TqBuf) {wOff n : Nat} (hin : wOff + n * 4 ≤ image.length)
    (hfit : n * 4 ≤ tileBytes.toNat) (eps : F) :
    Returns (tqNorm O (tqStoreInitStream bytes read tileBytes) out src wOff n eps :
        Tq (TqMachine M) Unit) := by
  unfold tqNorm
  rw [Nat.mod_eq_of_lt (hfit.trans_lt tileBytes.toNat_lt)]
  exact viewed_returns hread hbytes hin hfit fun bs => onMem_returns _

/-- **A norm that the tile does not hold** is not read: the view fails, or the
size wrapped and the floats are not all there. -/
theorem tqNorm_fails (out src : TqBuf) {wOff n : Nat} (hfit : tileBytes.toNat < n * 4) (eps : F) :
    Fails (fun e => e = .status .errIo ∨ 2 ^ 32 ≤ n * 4)
      (tqNorm O (tqStoreInitStream bytes read tileBytes) out src wOff n eps : Tq
      (TqMachine M) Unit) := by
  intro s
  unfold tqNorm
  have hexec :=
    onTile_exec (viewOr (tqStoreInitStream bytes read tileBytes) wOff (n * 4 % 2 ^ 32) .errIo) s
  have hview := viewOr_exec (tqStoreInitStream bytes read tileBytes) wOff
    (n * 4 % 2 ^ 32) .errIo s.tile
  cases hf : (tqStoreInitStream bytes read tileBytes).fetch wOff (n * 4 % 2 ^ 32) with
  | none =>
      rw [hf] at hview
      obtain ⟨t', hv⟩ := hview
      rw [hv] at hexec
      exact ⟨_, _, .inl rfl, exec_bind_error hexec⟩
  | some found =>
      obtain ⟨bs, k⟩ := found
      obtain ⟨rfl, hk⟩ := fetch_fits hf
      rw [hf] at hview
      obtain ⟨v, t', hv, hbehind⟩ := hview
      rw [hv] at hexec
      have hwrapped : 2 ^ 32 ≤ n * 4 := by
        refine Nat.not_lt.mp fun hlt => ?_
        rw [Nat.mod_eq_of_lt hlt] at hk
        exact Nat.not_lt.mpr hk hfit
      have hderef : (onTile (deref v (n * 4)) : Tq (TqMachine M) _).exec { s with tile := t' } =
          (.error .overrun, { s with tile := t' }) := by
        rw [onTile_exec, hbehind (n * 4), if_neg (by omega)]
      rw [exec_bind_ok hexec]
      exact ⟨_, _, .inr hwrapped, exec_bind_error hderef⟩

/-- The rows of a matrix, as many at a time as the tile holds. -/
theorem tqMatvecLoop_returns (hread : Supplies image read)
    (hbytes : bytes.toNat = image.length) (out : TqBuf) {wOff dtype rowBytes nb d rowsPerTile : Nat}
    (acts : TqQuant) (hdtype : dtype = tqDtQ40 ∨ dtype = tqDtQ80)
    (hin : wOff + rowBytes * d ≤ image.length) (hfit : rowBytes * rowsPerTile ≤ tileBytes.toNat) :
    ∀ fuel i,
      Returns (tqMatvecLoop O (tqStoreInitStream bytes read tileBytes) out wOff dtype rowBytes nb d
      rowsPerTile acts fuel i :
        Tq (TqMachine M) Unit)
  | 0, _ => Returns.pure ()
  | fuel + 1, i => by
      rw [tqMatvecLoop]
      by_cases hlt : i < d
      · rw [if_pos hlt]
        dsimp only
        have hrows : i + min (d - i) rowsPerTile ≤ d := by omega
        have hchunk : rowBytes * min (d - i) rowsPerTile ≤ tileBytes.toNat :=
          (Nat.mul_le_mul_left rowBytes (Nat.min_le_right _ _)).trans hfit
        generalize min (d - i) rowsPerTile = chunk at hrows hchunk
        have hend : wOff + rowBytes * i + rowBytes * chunk ≤ image.length := by
          rw [Nat.add_assoc, ← Nat.mul_add]
          exact (Nat.add_le_add_left (Nat.mul_le_mul_left rowBytes hrows) wOff).trans hin
        have hlen : image.length < 2 ^ 64 := hbytes ▸ bytes.toNat_lt
        rw [Nat.mod_eq_of_lt (by omega), Nat.mod_eq_of_lt (hchunk.trans_lt tileBytes.toNat_lt)]
        refine view_returns hread hbytes hend hchunk fun v s hbehind => ?_
        rw [if_neg (by rcases hdtype with rfl | rfl <;> decide),
          exec_bind_ok (deref_behind hbehind)]
        refine (onMem_returns _).bind (fun _ => ?_) _
        exact tqMatvecLoop_returns hread hbytes out acts hdtype hin hfit fuel _
      · rw [if_neg hlt]
        exact Returns.pure ()

theorem tqMatvec_returns (hread : Supplies image read)
    (hbytes : bytes.toNat = image.length) (out : TqBuf) {wOff dtype n d : Nat} (acts : TqQuant)
    (hdtype : dtype = tqDtQ40 ∨ dtype = tqDtQ80) (hblocks : tqGroupSize ∣ n)
    (hrow : 0 < tqDtypeNbytes dtype n) (hfit : tqDtypeNbytes dtype n ≤ tileBytes.toNat)
    (hin : wOff + tqDtypeNbytes dtype n * d ≤ image.length) :
    Returns (tqMatvec O (tqStoreInitStream bytes read tileBytes) out wOff dtype n d acts :
        Tq (TqMachine M) Unit) := by
  have hgood : ¬ (tqDtypeNbytes dtype n = 0 ∨ n % tqGroupSize ≠ 0) := by
    rintro (h | h)
    · exact hrow.ne' h
    · exact h (Nat.mod_eq_zero_of_dvd hblocks)
  unfold tqMatvec
  dsimp only [tqStoreInitStream]
  rw [if_neg hgood, if_neg (Nat.not_lt.mpr hfit)]
  refine (Returns.modify _).bind fun _ => ?_
  exact tqMatvecLoop_returns O hread hbytes out acts hdtype hin (Nat.mul_div_le _ _) d 0

theorem tqRowToFloat_returns (hread : Supplies image read) (hbytes : bytes.toNat = image.length)
    {baseOff dtype n row : Nat} (out : TqBuf) (hrow : 0 < tqDtypeNbytes dtype n)
    (hfit : tqDtypeNbytes dtype n ≤ tileBytes.toNat)
    (hin : baseOff + tqDtypeNbytes dtype n * row + tqDtypeNbytes dtype n ≤ image.length) :
    Returns (tqRowToFloat O (tqStoreInitStream bytes read tileBytes) baseOff dtype n row out :
        Tq (TqMachine M) Unit) := by
  have hlen : image.length < 2 ^ 64 := hbytes ▸ bytes.toNat_lt
  unfold tqRowToFloat
  dsimp only
  rw [if_neg hrow.ne', Nat.mod_eq_of_lt (by omega : baseOff + tqDtypeNbytes dtype n * row < 2 ^ 64),
    Nat.mod_eq_of_lt (hfit.trans_lt tileBytes.toNat_lt)]
  exact viewed_returns hread hbytes hin hfit fun bs => onMem_returns _

end Step

end Stream

/-! ## Rows -/

/-- A matrix is its rows, one after the other. -/
theorem payloadBytes_rows {dtype n : Nat} (hdtype : dtype = tqDtQ40 ∨ dtype = tqDtQ80)
    (hblocks : tqGroupSize ∣ n) (d : Nat) :
    payloadBytes dtype (d * n) = payloadBytes dtype n * d := by
  have hn : n % tqGroupSize = 0 := Nat.mod_eq_zero_of_dvd hblocks
  have hdn : d * n % tqGroupSize = 0 := Nat.mod_eq_zero_of_dvd (hblocks.mul_left d)
  have hdiv : d * n / tqGroupSize = d * (n / tqGroupSize) := Nat.mul_div_assoc d hblocks
  rcases hdtype with rfl | rfl
  · have hbytes : ∀ k, k % tqGroupSize = 0 → payloadBytes tqDtQ40 k = k / tqGroupSize * 18 :=
      fun k hk => if_neg (not_not.mpr hk)
    rw [hbytes _ hn, hbytes _ hdn, hdiv]
    ring
  · have hbytes : ∀ k, k % tqGroupSize = 0 → payloadBytes tqDtQ80 k = k / tqGroupSize * 34 :=
      fun k hk => if_neg (not_not.mpr hk)
    rw [hbytes _ hn, hbytes _ hdn, hdiv]
    ring

/-- The size of a row does not wrap, and is not zero. -/
theorem rowBytes_eq {dtype n : Nat} (hdtype : dtype = tqDtQ40 ∨ dtype = tqDtQ80)
    (hblocks : tqGroupSize ∣ n) (hpos : 0 < n) (hlt : n < 2 ^ 31) :
    tqDtypeNbytes dtype n = payloadBytes dtype n ∧ 0 < tqDtypeNbytes dtype n := by
  have hn : n % tqGroupSize = 0 := Nat.mod_eq_zero_of_dvd hblocks
  have hdiv : 0 < n / tqGroupSize := Nat.div_pos (Nat.le_of_dvd hpos hblocks) (by decide)
  have hle : n / tqGroupSize ≤ n := Nat.div_le_self n _
  have hbytes : 0 < payloadBytes dtype n ∧ payloadBytes dtype n < 2 ^ 64 := by
    rcases hdtype with rfl | rfl
    · have : payloadBytes tqDtQ40 n = n / tqGroupSize * 18 := if_neg (not_not.mpr hn)
      omega
    · have : payloadBytes tqDtQ80 n = n / tqGroupSize * 34 := if_neg (not_not.mpr hn)
      omega
  rw [tqDtypeNbytes_eq hbytes.2]
  exact ⟨rfl, hbytes.1⟩

/-! ## The step -/

section Forward
variable {F M : Type} [TqMemory F M] (O : FloatOps F) {image : List UInt8}
    {read : Nat → Nat → Option (List UInt8)}
variable {bytes : UInt64} {tileBytes : UInt32} {m : TqModel}

/-- The tile holds a row of every matrix. -/
structure HoldsRows (m : TqModel) (tileBytes : UInt32) : Prop where
  dim : tqDtypeNbytes m.qtype m.dim ≤ tileBytes.toNat
  hiddenDim : tqDtypeNbytes m.qtype m.hiddenDim ≤ tileBytes.toNat

theorem matrix_returns (hread : Supplies image read) (hbytes : bytes.toNat = image.length)
    (hm : m.Sized) {n d : Nat} (hblocks : tqGroupSize ∣ n) (hpos : 0 < n) (hlt : n < 2 ^ 31)
    (hfit : tqDtypeNbytes m.qtype n ≤ tileBytes.toNat) (out : TqBuf) (acts : TqQuant) {wOff : Nat}
    (hin : wOff + payloadBytes m.qtype (d * n) ≤ image.length) :
    Returns (tqMatvec O (tqStoreInitStream bytes read tileBytes) out wOff m.qtype n d acts :
        Tq (TqMachine M) Unit) := by
  obtain ⟨hrow, hrow0⟩ := rowBytes_eq hm.quantized hblocks hpos hlt
  rw [payloadBytes_rows hm.quantized hblocks, ← hrow] at hin
  exact tqMatvec_returns O hread hbytes out acts hm.quantized hblocks hrow0 hfit hin

/-- A layer returns when the tile holds its norms. -/
theorem layer_returns (hread : Supplies image read) (hbytes : bytes.toNat = image.length)
    (hm : m.Sized) (hrows : HoldsRows m tileBytes) (hfit : m.dim * 4 ≤ tileBytes.toNat) {l : Nat}
    (hin : ∀ s : TqLayerSlot, m.layers l s + s.payload m ≤ image.length)
    (rt : TqRuntime) (pos : Nat) (invSqrtHs : F) :
    Returns (do
      tqAttention O (tqStoreInitStream bytes read tileBytes) m rt l pos invSqrtHs
      tqFeedForward O (tqStoreInitStream bytes read tileBytes) m l : Tq (TqMachine M) Unit) := by
  have hdim : ∀ {n : Nat} {s : TqLayerSlot}, s.dtype m = m.qtype → s.rows m = n → s.cols m = m.dim →
      ∀ out acts,
      Returns (tqMatvec O (tqStoreInitStream bytes read tileBytes) out (m.layers l s) m.qtype
        m.dim n acts : Tq (TqMachine M) Unit) := by
    intro n s hdtype hn hcols out acts
    have hs := hin s
    rw [TqLayerSlot.payload, hdtype, hcols, if_neg hm.dim_pos.ne', hn] at hs
    exact matrix_returns O hread hbytes hm hm.dim_blocks hm.dim_pos hm.dim_lt hrows.dim out acts hs
  have hhidden : ∀ out acts,
      Returns (tqMatvec O (tqStoreInitStream bytes read tileBytes) out (m.layers l .w2) m.qtype
      m.hiddenDim m.dim acts :
        Tq (TqMachine M) Unit) := by
    intro out acts
    have hs := hin .w2
    rw [TqLayerSlot.payload, TqLayerSlot.cols, if_neg hm.hiddenDim_pos.ne'] at hs
    exact matrix_returns O hread hbytes hm hm.hiddenDim_blocks hm.hiddenDim_pos hm.hiddenDim_lt
      hrows.hiddenDim out acts hs
  have hop : ∀ op : M → M, Returns (onMem op) := onMem_returns
  have hatt := tqNorm_returns (M := M) O hread hbytes .xb .x (hin .rmsAtt) hfit (normEps O m)
  have hffn := tqNorm_returns (M := M) O hread hbytes .xb .x (hin .rmsFfn) hfit (normEps O m)
  unfold tqAttention tqFeedForward
  refine Returns.bind ?_ fun _ => ?_
  · exact hatt.bind fun _ => (hop _).bind fun _ => (hdim rfl rfl rfl _ _).bind fun _ =>
      (hdim rfl rfl rfl _ _).bind fun _ => (hdim rfl rfl rfl _ _).bind fun _ =>
      (hop _).bind fun _ => (hop _).bind fun _ => (hop _).bind fun _ => (hop _).bind fun _ =>
      (hop _).bind fun _ => (hdim rfl rfl rfl _ _).bind fun _ => hop _
  · exact hffn.bind fun _ => (hop _).bind fun _ => (hdim rfl rfl rfl _ _).bind fun _ =>
      (hdim rfl rfl rfl _ _).bind fun _ => (hop _).bind fun _ => (hop _).bind fun _ =>
      (hhidden _ _).bind fun _ => hop _

section Streamed
variable (hread : Supplies image read) (hbytes : bytes.toNat = image.length) (hm : m.Sized)
variable (hin : SlotsInBounds image image.length m) (hrows : HoldsRows m tileBytes) (rt : TqRuntime)

include hread hbytes hm hin hrows

/-- The row of a token. -/
theorem embedding_returns {token : Nat} (htoken : token < m.vocabSize) :
    Returns (tqRowToFloat O (tqStoreInitStream bytes read tileBytes) m.tokEmb m.qtype
      m.dim token .x :
        Tq (TqMachine M) Unit) := by
  obtain ⟨hrow, hrow0⟩ := rowBytes_eq hm.quantized hm.dim_blocks hm.dim_pos hm.dim_lt
  refine tqRowToFloat_returns O hread hbytes .x hrow0 hrows.dim ?_
  have hemb := hin.tokEmb
  rw [payloadBytes_rows hm.quantized hm.dim_blocks, ← hrow] at hemb
  have hnext := Nat.mul_le_mul_left (tqDtypeNbytes m.qtype m.dim) (Nat.succ_le_of_lt htoken)
  rw [Nat.mul_succ] at hnext
  omega

theorem tqForwardAt_returns (hfit : m.dim * 4 ≤ tileBytes.toNat) {token : Nat}
    (htoken : token < m.vocabSize) (pos : Nat) :
    Returns (tqForwardAt O (tqStoreInitStream bytes read tileBytes) m rt token pos :
        Tq (TqMachine M) Unit) := by
  unfold tqForwardAt
  dsimp only
  refine (embedding_returns O hread hbytes hm hin hrows htoken).bind fun _ => ?_
  refine (onMem_returns _).bind fun _ => ?_
  refine (Returns.forUpTo fun l hl => ?_).bind fun _ => ?_
  · exact layer_returns O hread hbytes hm hrows hfit (hin.layers l hl) rt pos _
  · refine (tqNorm_returns O hread hbytes .x .x hin.rmsFinal hfit _).bind fun _ => ?_
    refine (onMem_returns _).bind fun _ => ?_
    exact matrix_returns O hread hbytes hm hm.dim_blocks hm.dim_pos hm.dim_lt hrows.dim _ _
      hin.classifier

/-- The first norm of the first layer already fails. -/
theorem tqForwardAt_fails (hfit : tileBytes.toNat < m.dim * 4) {token : Nat}
    (htoken : token < m.vocabSize) (pos : Nat) :
    Fails (fun e => e = .status .errIo ∨ 2 ^ 32 ≤ m.dim * 4)
      (tqForwardAt O (tqStoreInitStream bytes read tileBytes) m rt token pos :
        Tq (TqMachine M) Unit) := by
  unfold tqForwardAt
  dsimp only
  refine (embedding_returns O hread hbytes hm hin hrows htoken).fails fun _ => ?_
  refine (onMem_returns _).fails fun _ => Fails.bind (Fails.forUpTo hm.nLayers_pos ?_)
  exact Fails.bind (tqNorm_fails O .xb .x hfit _).bind

/-- **A step** returns if and only if the tile holds the floats of a norm. -/
theorem tqForward_returns_iff {token pos : Int} (htoken : 0 ≤ token ∧ token < m.vocabSize)
    (hpos : 0 ≤ pos ∧ pos < rt.maxSeq) (s : TqMachine M) :
    ((tqForward O (tqStoreInitStream bytes read tileBytes) m rt token pos).exec s).1 = .ok () ↔
      m.dim * 4 ≤ tileBytes.toNat := by
  have hlt : token.toNat < m.vocabSize := by omega
  unfold tqForward
  rw [if_neg (by omega), if_neg (by omega)]
  constructor
  · intro h
    refine Nat.not_lt.mp fun hfit => ?_
    exact (tqForwardAt_fails O hread hbytes hm hin hrows rt hfit hlt pos.toNat).not_ok s () h
  · intro hfit
    obtain ⟨_, s', h⟩ := tqForwardAt_returns O hread hbytes hm hin hrows rt hfit hlt pos.toNat s
    rw [h]

end Streamed

end Forward

/-! ## Exported models -/

namespace Etq

/-- The entry of a tensor counts its values. -/
theorem Tensor.entry_count {t : Tensor} (h : t.shape.length ≤ 4) (off : Nat) :
    (t.entry off).count = t.shape.prod := by
  unfold TqTensorEntry.count Tensor.entry
  dsimp only
  congr 1
  match hs : t.shape with
  | [] => rfl
  | [_] => rfl
  | [_, _] => rfl
  | [_, _, _] => rfl
  | [_, _, _, _] => rfl
  | _ :: _ :: _ :: _ :: _ :: _ =>
      rw [hs] at h
      simp only [List.length_cons] at h
      omega

/-- **An entry of the writer is honest.** -/
theorem Tensor.Valid.honest {t : Tensor} (h : t.Valid) {off : Nat}
    (hend : off + t.payload.length < 2 ^ 64) : (t.entry off).Honest := by
  have hpay := h.payload
  refine ⟨?_, hend⟩
  show payloadBytes t.dtype (t.entry off).count ≤ t.payload.length
  rw [t.entry_count h.rank]
  unfold payloadBytes
  unfold dtypeNbytes at hpay
  split_ifs at hpay ⊢ <;> injection hpay with hpay <;> exact hpay.le

section Model
variable {F R : Type} {np : Numpy F} {f32 : R → UInt32} {c : Config R} {w : Weights F}
variable {tok : Option (List (List UInt8) × NdArray F)}

/-- The tensors of an exported model are in bounds. -/
theorem writeModel_inBounds (hc : c.Valid) (hw : w.Shaped c)
    (htok : ∀ p, tok = some p → p.1.length = c.vocabSize) {file : List UInt8}
    (h : writeModel np f32 c w tok = .ok file) {arena : TqArena} (hmod : 16 ∣ arena.sizeMod)
    (hcap : arena.cap < arena.sizeMod) (hroom : c.nLayers * tqLayerOffsetsBytes + 16 ≤ arena.cap) :
    ∃ m, Accepted file (UInt64.ofNat file.length) arena m ∧ SlotsInBounds file file.length m ∧
      (UInt64.ofNat file.length).toNat = file.length ∧ m.dim = c.dim ∧ m.hiddenDim = c.hiddenDim ∧
      m.vocabSize = c.vocabSize ∧ m.qtype = c.qtype := by
  obtain ⟨hwrite, hacc⟩ := writeModel_accepted hc hw htok h hmod hcap hroom
  obtain ⟨ts, hts, -⟩ := bind_eq_ok.mp h
  obtain ⟨-, hvalid, hall⟩ := modelTensors_ok np c w tok hts
  obtain ⟨data, hfile, hdesc, hlen, -⟩ := write_image hwrite
  have htotal : total (allTensors np c w tok) < 2 ^ 64 :=
    hdesc.header.fields (8, total (allTensors np c w tok))
      (by simp [TqHeader.fields, Config.header])
  have hbytes : (UInt64.ofNat file.length).toNat = file.length :=
    UInt64.toNat_ofNat_of_lt' (by rw [hlen]; exact htotal)
  refine ⟨_, hacc, ?_, hbytes, rfl, rfl, rfl, rfl⟩
  have hin := hacc.inBounds
  rw [hbytes] at hin
  refine hin.mpr fun e he => .inl ?_
  have hmem := he.mem
  rw [hfile, directory_image hdesc] at hmem
  obtain ⟨p, hp, rfl⟩ := mem_entriesFrom.mp hmem
  have hle := region_le_total hp
  exact (hvalid p.1 (hall ▸ (List.of_mem_zip hp).1)).honest (hle.trans_lt htotal)

/-- **The documented tile.** With a callback that never fails, and a tile for a
chunk of the directory and a row of every matrix, an exported model opens; a
step on it returns if and only if the tile also holds `dim` floats. -/
theorem writeModel_tile (hc : c.Valid) (hw : w.Shaped c)
    (htok : ∀ p, tok = some p → p.1.length = c.vocabSize) {file : List UInt8}
    (h : writeModel np f32 c w tok = .ok file) {read : Nat → Nat → Option (List UInt8)}
    (hread : Supplies file read) {tileBytes : UInt32} (hdir : 2048 ≤ tileBytes.toNat)
    (hrows : ∀ n ∈ [c.dim, c.hiddenDim], tqDtypeNbytes c.qtype n ≤ tileBytes.toNat)
    {arena : TqArena} (hmod : 16 ∣ arena.sizeMod) (hcap : arena.cap < arena.sizeMod)
    (hroom : c.nLayers * tqLayerOffsetsBytes + 16 ≤ arena.cap) (t : TqTile) :
    let st := tqStoreInitStream (UInt64.ofNat file.length) read tileBytes
    ∃ m t', (tqModelOpen st arena).exec t = (.ok m, t') ∧
      ∀ {E M : Type} [TqMemory E M] (O : FloatOps E) (rt : TqRuntime) (token pos : Int), 0 ≤ token ∧
      token < c.vocabSize →
        0 ≤ pos ∧ pos < rt.maxSeq → ∀ s : TqMachine M,
          (((tqForward O st m rt token pos).exec s).1 = .ok () ↔ c.dim * 4 ≤ tileBytes.toNat) := by
  intro st
  obtain ⟨m, hacc, hin, hbytes, hdim, hhidden, hvocab, hqtype⟩ :=
    writeModel_inBounds hc hw htok h hmod hcap hroom
  obtain ⟨t', hopen⟩ := hacc.opens hread hbytes hdir t
  refine ⟨m, t', hopen, fun O rt token pos htoken hpos s => ?_⟩
  rw [← hvocab] at htoken
  rw [← hdim]
  refine tqForward_returns_iff O hread hbytes (tqModelOpen_sized hopen) hin ⟨?_, ?_⟩
    rt htoken hpos s
  · rw [hqtype, hdim]
    exact hrows c.dim List.mem_cons_self
  · rw [hqtype, hhidden]
    exact hrows c.hiddenDim (List.mem_cons_of_mem _ List.mem_cons_self)

end Model

theorem shortConfig_valid : (smallConfig 544 32 1 1 4).Valid := by
  constructor <;> decide

theorem shortConfig_fits : (smallConfig 544 32 1 1 4).Fits := by
  constructor <;> decide

theorem shortConfig_rows : ∀ n ∈ [544, 32], tqDtypeNbytes tqDtQ40 n ≤ 2048 := by decide

/-- Arenas for a runtime of that model. -/
def shortFast : TqArena := ⟨0x20000000, 16384, 2 ^ 32⟩

def shortCache : TqArena := ⟨0x70000000, 8192, 2 ^ 32⟩

theorem shortConfig_runtime {m : TqModel} (hm : SmallDims 544 32 1 1 4 m) :
    ∃ rt, tqRuntimeInit m 1 0 shortFast shortCache = .ok rt ∧ rt.maxSeq = 1 := by
  have hfast : tqFastSizes m 1 =
      [2176, 2176, 2176, 2176, 128, 128, 4, 4, 578, 34, 2176, 2176, 1088, 1088] := by
    unfold tqFastSizes
    rw [hm.dim, hm.hiddenDim, hm.kvDim, hm.headSize, hm.nHeads, hm.vocabSize]
    rfl
  have hcache : tqCacheSizes m 1 .f32 = [2176, 2176] := by
    unfold tqCacheSizes
    rw [hm.nLayers, hm.kvDim]
  obtain ⟨rt, hrt⟩ := (@tqRuntimeInit_isOk m 1 (by decide)
    (by rw [hm.seqLen]; decide) .f32 shortFast shortCache).mpr
      ⟨by rw [hfast]; decide, by rw [hcache]; decide⟩
  exact ⟨rt, hrt, (tqRuntimeInit_ok hrt).1⟩

/-- The model of that file. -/
theorem shortModel_written : ∃ file m,
    writeModel zeroNumpy id (smallConfig 544 32 1 1 4)
      (zeroWeights (smallConfig 544 32 1 1 4)) smallTok =
      .ok file ∧ Accepted file (UInt64.ofNat file.length) ⟨1, 88, 2 ^ 64⟩ m ∧
        SmallDims 544 32 1 1 4 m :=
  smallModel_accepted shortConfig_valid shortConfig_fits (by decide) (by decide) (by decide) rfl

/-- A model of width 544 and a tile of 2240 bytes. -/
theorem writeModel_tile_small : ∃ file m t' rt,
    writeModel zeroNumpy id (smallConfig 544 32 1 1 4)
      (zeroWeights (smallConfig 544 32 1 1 4)) smallTok =
      .ok file ∧
    (tqModelOpen (tqStoreInitStream (UInt64.ofNat file.length) (serve file) 2240)
      ⟨1, 88, 2 ^ 64⟩).exec
      ⟨0, []⟩ = (.ok m, t') ∧
    tqRuntimeInit m 1 0 shortFast shortCache = .ok rt ∧
    ((tqForward ratOps (tqStoreInitStream (UInt64.ofNat file.length) (serve file) 2240)
      m rt 0 0).exec
      (TqMachine.zeroed ratOps)).1 = .ok () := by
  obtain ⟨file, m, hfile, hacc, hm⟩ := shortModel_written
  obtain ⟨m', t', hopen, hstep⟩ := @writeModel_tile UInt32 UInt32 zeroNumpy id _ _ _
    shortConfig_valid (zeroWeights_shaped _) (fun p hp => by cases hp; rfl) file hfile (serve file)
    (supplies_serve file) 2240
    (by decide) (fun n hn => (shortConfig_rows n hn).trans (by decide)) ⟨1, 88, 2 ^ 64⟩
    (by decide) (by decide) (Nat.le_refl 88) ⟨0, []⟩
  obtain ⟨_, _, _, hbytes, _⟩ := @writeModel_inBounds UInt32 UInt32 zeroNumpy id _ _ _
    shortConfig_valid (zeroWeights_shaped _) (fun p hp => by cases hp; rfl) file hfile
    ⟨1, 88, 2 ^ 64⟩ (by decide) (by decide) (Nat.le_refl 88)
  obtain ⟨t'', hopen'⟩ := @Accepted.opens file (serve file) _ 2240 (supplies_serve file)
    hbytes (by decide)
    _ _ hacc ⟨0, []⟩
  obtain rfl : m' = m := Except.ok.inj (congrArg Prod.fst (hopen.symm.trans hopen'))
  obtain ⟨rt, hrt, hseq⟩ := shortConfig_runtime hm
  exact ⟨file, m', t', rt, hfile, hopen, hrt, (hstep ratOps rt 0 0 (by decide) (by omega)
    (TqMachine.zeroed ratOps)).mpr (by decide)⟩

/-- A tile of 2048 bytes holds every row and every chunk of that model, but not
the 544 floats of its norms. -/
theorem writeModel_tile_short : ∃ file m t' rt,
    writeModel zeroNumpy id (smallConfig 544 32 1 1 4)
      (zeroWeights (smallConfig 544 32 1 1 4)) smallTok =
      .ok file ∧
    (∀ n ∈ [544, 32], tqDtypeNbytes tqDtQ40 n ≤ 2048) ∧ Supplies file (serve file) ∧
    (tqModelOpen (tqStoreInitStream (UInt64.ofNat file.length) (serve file) 2048)
      ⟨1, 88, 2 ^ 64⟩).exec
      ⟨0, []⟩ = (.ok m, t') ∧
    tqRuntimeInit m 1 0 shortFast shortCache = .ok rt ∧
    ((tqForward ratOps (tqStoreInitStream (UInt64.ofNat file.length) (serve file) 2048)
      m rt 0 0).exec
      (TqMachine.zeroed ratOps)).1 = .error (.status .errIo) := by
  obtain ⟨file, m, hfile, hacc, hm⟩ := shortModel_written
  obtain ⟨m', hacc', hin, hbytes, hdim, hhidden, hvocab, hqtype⟩ :=
    @writeModel_inBounds UInt32 UInt32 zeroNumpy
    id _ _ _ shortConfig_valid (zeroWeights_shaped _) (fun p hp => by cases hp; rfl) file hfile
    ⟨1, 88, 2 ^ 64⟩ (by decide) (by decide) (Nat.le_refl 88)
  obtain rfl : m' = m := hacc'.model.trans hacc.model.symm
  obtain ⟨rt, hrt, hseq⟩ := shortConfig_runtime hm
  have hread := supplies_serve file
  obtain ⟨t', hopen⟩ := @Accepted.opens file (serve file) _ 2048 hread hbytes (by decide) _
    _ hacc ⟨0, []⟩
  refine ⟨file, m', t', rt, hfile, shortConfig_rows, hread, hopen, hrt, ?_⟩
  have hrows : HoldsRows m' 2048 := by
    refine ⟨?_, ?_⟩
    · rw [hqtype, hdim]
      exact shortConfig_rows 544 (by decide)
    · rw [hqtype, hhidden]
      exact shortConfig_rows 32 (by decide)
  have htoken : 0 < m'.vocabSize := by
    rw [hvocab]
    exact Nat.one_pos
  have hfit : (2048 : UInt32).toNat < m'.dim * 4 := by
    rw [hdim]
    exact (by decide : (2048 : UInt32).toNat < 544 * 4)
  obtain ⟨e, s', he, hexec⟩ := tqForwardAt_fails ratOps hread hbytes (tqModelOpen_sized hopen) hin
    hrows rt hfit htoken 0 (TqMachine.zeroed ratOps)
  have hio : e = .status .errIo := by
    rcases he with he | hwrapped
    · exact he
    · rw [hdim] at hwrapped
      exact absurd hwrapped (by decide : ¬ 2 ^ 32 ≤ 544 * 4)
  rw [hio] at hexec
  unfold tqForward
  rw [if_neg (by omega), if_neg (by omega)]
  exact congrArg Prod.fst hexec

end Etq

end TinyLlm
