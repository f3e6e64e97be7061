/-
# `TinyLlm.Convert.Oracle` — the oracle computes the transformer

`generate_logits` keeps the keys and values of all positions, as the engine
does, but in arrays of their own and in other loops.  Over the tensors of one
file (`SameModel`) a round over its layers is a `LayerStep` of the same
`transformer`, with a cache of floats; so the same induction gives its logits
(`refTokens_spec`).
-/
import TinyLlm.Convert.Numpy
import TinyLlm.Forward.Decode

namespace TinyLlm.Etq

open Bytes Loop Causal
open Finset (range mem_range sum_congr)

/-! ## One file -/

section Tensors
variable {R : Type} (r : Reader R) (file : List UInt8) (m : TqModel)

/-- The reader has a tensor of `n` floats under a name; it lies in the file at `off`. -/
def HasVector (name : List UInt8) (off n : Nat) : Prop :=
  ∃ t, r.get name = some t ∧ t.dtype = tqDtF32 ∧ t.shape.prod = n ∧
    t.payload = slice file off (4 * n) ∧
    t.payload.length = 4 * n

/-- And a quantized matrix with `d` rows of `n` values. -/
def HasMatrix (name : List UInt8) (off n d : Nat) : Prop :=
  ∃ t, r.get name = some t ∧ t.dtype = m.qtype ∧
    t.payload = slice file off (tqDtypeNbytes m.qtype n * d) ∧
    t.payload.length = tqDtypeNbytes m.qtype n * d

/-- The reader and the engine have one model. -/
structure SameModel (np : RefNumpy R) : Prop where
  dim : r.cfg.dim.toNat = m.dim
  hiddenDim : r.cfg.hiddenDim.toNat = m.hiddenDim
  nLayers : r.cfg.nLayers.toNat = m.nLayers
  nHeads : r.cfg.nHeads.toNat = m.nHeads
  nKvHeads : r.cfg.nKvHeads.toNat = m.nKvHeads
  vocabSize : r.cfg.vocabSize.toNat = m.vocabSize
  ropeTheta : r.cfg.ropeTheta = np.float32 (UInt32.ofNat m.hdr.ropeTheta)
  normEps : r.cfg.normEps = np.float32 (UInt32.ofNat m.hdr.normEps)
  even : 2 ∣ m.headSize
  tokEmb : HasMatrix r file m (ascii "tok_emb") m.tokEmb m.dim m.vocabSize
  rmsFinal : HasVector r file (ascii "rms_final") m.rmsFinal m.dim
  classifier : HasMatrix r file m
    (if r.cfg.sharedClassifier ≠ 0 then ascii "tok_emb" else ascii "cls")
    m.classifier m.dim m.vocabSize
  norms : ∀ l < m.nLayers, ∀ s, s.cols m = 0 →
    HasVector r file (layerName l s) (m.layers l s) (s.rows m)
  matrices : ∀ l < m.nLayers, ∀ s, s.cols m ≠ 0 →
    HasMatrix r file m (layerName l s) (m.layers l s) (s.cols m) (s.rows m)

variable {r file m} {np : RefNumpy R}

theorem nHeads_pos (hm : m.Sized) : 0 < m.nHeads :=
  hm.groups ▸ Nat.mul_pos hm.kvMul_pos hm.nKvHeads_pos

theorem headSize_eq (hm : m.Sized) (hr : SameModel r file m np) : r.cfg.headSize = m.headSize := by
  unfold ReadConfig.headSize
  rw [hr.dim, hr.nHeads, ← hm.heads, Nat.mul_div_cancel_left _ (nHeads_pos hm)]

theorem kvDim_eq (hm : m.Sized) (hr : SameModel r file m np) : r.cfg.kvDim = m.kvDim := by
  rw [ReadConfig.kvDim, headSize_eq hm hr, hr.nKvHeads, hm.kv]

theorem kvMul_eq (hm : m.Sized) (hr : SameModel r file m np) :
    r.cfg.nHeads.toNat % r.cfg.nKvHeads.toNat = 0 ∧
      r.cfg.nHeads.toNat / r.cfg.nKvHeads.toNat = m.kvMul := by
  rw [hr.nHeads, hr.nKvHeads, ← hm.groups]
  exact ⟨Nat.mul_mod_left _ _, Nat.mul_div_cancel _ hm.nKvHeads_pos⟩

end Tensors

section Oracle
variable {R : Type} [Field R] [LinearOrder R] {O : FloatOps R} {np : RefNumpy R} {r : Reader R}
variable {file : List UInt8} {m : TqModel}

/-! ## Weights -/

theorem array_eq (hO : SameNumbers O np) {name : List UInt8} {off n : Nat}
    (h : HasVector r file name off n) :
    ∃ w, r.array np name = some w ∧ ∀ i < n, w i = vectorAt O file off i := by
  obtain ⟨t, hget, hdtype, hshape, hpay, hlen⟩ := h
  unfold Reader.array
  simp only [hget, hdtype, hshape, Option.bind_eq_bind, Option.bind_some, if_true]
  rw [if_neg (not_not.mpr hlen)]
  refine ⟨_, rfl, fun i hi => ?_⟩
  unfold vectorAt
  rw [hO.float32, hpay, leAt_slice (by omega)]

theorem embed_eq (hO : SameNumbers O np) (hm : m.Sized) (hr : SameModel r file m np) {token : Nat}
    (htoken : token < m.vocabSize) :
    ∃ x, r.embed np token = some x ∧ ∀ i < m.dim, x i = embedding O file m token i := by
  obtain ⟨t, hget, hdtype, hpay, hlen⟩ := hr.tokEmb
  have hstride : m.dim / tqGroupSize * (if m.qtype = tqDtQ80 then 34 else 18) =
      tqDtypeNbytes m.qtype m.dim := by
    rcases hm.quantized with hq | hq
    · rw [if_neg (by rw [hq]; decide),
        tqDtypeNbytes_blocks hm.dim_blocks hm.dim_lt (.inr ⟨hq, rfl⟩)]
    · rw [if_pos hq, tqDtypeNbytes_blocks hm.dim_blocks hm.dim_lt (.inl ⟨hq, rfl⟩)]
  have hend := Nat.mul_le_mul_left (tqDtypeNbytes m.qtype m.dim) (Nat.succ_le_of_lt htoken)
  rw [Nat.mul_succ] at hend
  -- the row of the token is a matrix of one row
  have hrow : slice t.payload (token * tqDtypeNbytes m.qtype m.dim) (tqDtypeNbytes m.qtype m.dim) =
      matrixRow file m m.tokEmb m.dim token := by
    rw [hpay, Nat.mul_comm token, slice_slice hend]
    rfl
  have hone : (matrixRow file m m.tokEmb m.dim token).length = tqDtypeNbytes m.qtype m.dim * 1 := by
    rw [← hrow, slice, List.length_take, List.length_drop, hlen, Nat.mul_comm token]
    omega
  obtain ⟨q, s, hun, hrows⟩ := unpackWeight_spec hO hm.quantized hm.dim_blocks hm.dim_lt hone
  unfold Reader.embed
  simp only [hget, hdtype, hr.dim, Option.bind_eq_bind, Option.bind_some]
  rw [hstride, hrow, hun]
  refine ⟨_, rfl, fun i hi => ?_⟩
  have hvalue := (hrows 0).value (i / tqGroupSize) (Nat.div_lt_div_of_lt_of_dvd hm.dim_blocks hi)
    (i % tqGroupSize) (Nat.mod_lt i (by decide))
  rw [Nat.mul_zero, slice_zero (hone.trans (Nat.mul_one _)), Nat.div_add_mod'] at hvalue
  exact hvalue.symm

/-- **A norm**, with its weights. -/
theorem normed_eq (hO : SameNumbers O np) (hr : SameModel r file m np)
    {name : List UInt8} {off : Nat} (h : HasVector r file name off m.dim) {x y : Nat → R}
    (hx : ∀ i < m.dim, x i = y i) :
    ∃ w, r.array np name = some w ∧ ∀ i < m.dim, rmsnorm np m.dim x w r.cfg.normEps i =
      normedAt O file m off y i := by
  obtain ⟨w, hw, hwv⟩ := array_eq hO h
  have heps : r.cfg.normEps = normEps O m := hr.normEps.trans (hO.float32 _).symm
  rw [heps]
  exact ⟨w, hw, rmsnorm_eq hO hx hwv⟩

/-! ## Attention -/

theorem angle_eq (hO : SameNumbers O np) (hm : m.Sized) (hr : SameModel r file m np) (pos i : Nat) :
    r.angle np pos i = ropeAngle O m pos i := by
  unfold Reader.angle ropeAngle
  rw [headSize_eq hm hr, hr.ropeTheta]
  simp only [hO.mul, hO.div, hO.power, hO.float32, hO.ofInt]
  push_cast
  rw [mul_comm (2 : R)]

/-- **A rotation**, of heads of even size. -/
theorem rope_eq (hO : SameNumbers O np) (hm : m.Sized) (hr : SameModel r file m np) {n : Nat}
    (hn : m.headSize ∣ n) (pos : Nat) {x y : Nat → R} (hx : ∀ i < n, x i = y i) :
    ∃ out, rope n r.cfg.headSize (fun i => np.cos (r.angle np pos i))
      (fun i => np.sin (r.angle np pos i)) x =
        some out ∧ ∀ i < n, out i = roped O m pos y i := by
  have heven : m.headSize % 2 = 0 := Nat.mod_eq_zero_of_dvd hr.even
  have hwhole : n % m.headSize = 0 := Nat.mod_eq_zero_of_dvd hn
  unfold rope
  rw [headSize_eq hm hr, if_neg (by omega)]
  refine ⟨_, rfl, fun i hi => ?_⟩
  have hlt := Nat.mod_lt i hm.headSize_pos
  -- the other element of the pair is in the same head
  have hend :=
    Nat.mul_le_mul_left m.headSize (Nat.succ_le_of_lt (Nat.div_lt_div_of_lt_of_dvd hn hi))
  rw [Nat.mul_div_cancel' hn, Nat.mul_succ] at hend
  have hsplit := Nat.div_add_mod i m.headSize
  unfold roped
  simp only [angle_eq hO hm hr, hO.cos, hO.sin, hO.add, hO.sub, hO.mul]
  by_cases hfirst : i % m.headSize % 2 = 0
  · rw [if_pos hfirst, if_neg (by omega), if_pos (by omega), hx i hi, hx (i + 1) (by omega)]
  · rw [if_neg hfirst, if_pos (by omega), hx i hi, hx (i - 1) (by omega)]

/-- What the arrays have of the rows of a layer, up to a position. -/
def RowsHeld (m : TqModel) (pos : Nat) (k v : Nat → Nat → R) (rows : Nat → KvRow R) : Prop :=
  ∀ t ≤ pos, ∀ i < m.kvDim, k t i = (rows t).key i ∧ v t i = (rows t).value i

theorem keyDot_f32 (hO : SameNumbers O np) (row : KvRow R) (kvh : Nat) (q : Nat → R) (qo : Nat) :
    keyDot O m .f32 row kvh q qo =
      ∑ i ∈ range m.headSize, q (qo + i) * row.key (kvh * m.headSize + i) :=
  (sum_loop hO _ _).trans (sum_congr rfl fun _ _ => hO.mul _ _)

theorem invSqrtHeadSize_eq (hO : SameNumbers O np) :
    invSqrtHeadSize O m = 1 / np.sqrt m.headSize := by
  rw [invSqrtHeadSize, hO.div, hO.sqrt, hO.ofInt, hO.ofInt, Int.cast_one, Int.cast_natCast]

theorem headScores_eq (hO : SameNumbers O np) (hm : m.Sized)
    (hr : SameModel r file m np) {pos h : Nat} (hh : h < m.nHeads) {q q' : Nat → R}
    {k v : Nat → Nat → R} {rows : Nat → KvRow R} (hq : ∀ i < m.dim, q i = q' i)
    (hrows : RowsHeld m pos k v rows) :
    ∀ t < pos + 1, r.headScores np pos h q k t = headWeights O m .f32 pos q' rows h t := by
  unfold Reader.headScores headWeights
  rw [headSize_eq hm hr, (kvMul_eq hm hr).2]
  refine softmax_eq hO fun t ht => ?_
  have hkvh : h / m.kvMul < m.nKvHeads := Nat.div_lt_of_lt_mul (hm.groups.symm ▸ hh)
  have hkv := Nat.mul_le_mul_right m.headSize (Nat.succ_le_of_lt hkvh)
  have hqh := Nat.mul_le_mul_right m.headSize (Nat.succ_le_of_lt hh)
  rw [Nat.succ_mul, Nat.mul_comm m.nKvHeads, ← hm.kv] at hkv
  rw [Nat.succ_mul, hm.heads] at hqh
  rw [hO.mul, keyDot_f32 hO, invSqrtHeadSize_eq hO, mul_one_div]
  congr 1
  refine sum_congr rfl fun j hj => ?_
  have hj := mem_range.mp hj
  rw [(hrows t (Nat.le_of_lt_succ ht) _ (by omega)).1, hq _ (by omega), mul_comm]

/-- **Attention.** -/
theorem attOut_eq (hO : SameNumbers O np) (hm : m.Sized) (hr : SameModel r file m np) {pos : Nat}
    {q q' : Nat → R} {k v : Nat → Nat → R} {rows : Nat → KvRow R} (hq : ∀ i < m.dim, q i = q' i)
    (hrows : RowsHeld m pos k v rows) :
    ∃ out, r.attOut np pos q k v = some out ∧ ∀ i < m.dim, out i =
      attended O m .f32 pos q' rows i := by
  obtain ⟨hwhole, hmul⟩ := kvMul_eq hm hr
  unfold Reader.attOut
  rw [if_neg (not_not.mpr hwhole), headSize_eq hm hr, hmul]
  refine ⟨_, rfl, fun i hi => ?_⟩
  have hh : i / m.headSize < m.nHeads := Nat.div_lt_of_lt_mul (by rwa [Nat.mul_comm, hm.heads])
  have hkvh : i / m.headSize / m.kvMul < m.nKvHeads := Nat.div_lt_of_lt_mul (hm.groups.symm ▸ hh)
  have hkv := Nat.mul_le_mul_right m.headSize (Nat.succ_le_of_lt hkvh)
  rw [Nat.succ_mul, Nat.mul_comm m.nKvHeads, ← hm.kv] at hkv
  have hlt := Nat.mod_lt i hm.headSize_pos
  unfold attended headOut
  rw [sum_loop hO]
  refine sum_congr rfl fun t ht => ?_
  have ht := mem_range.mp ht
  rw [headScores_eq hO hm hr hh hq hrows t ht, (hrows t (Nat.le_of_lt_succ ht) _ (by omega)).2]
  exact (hO.mul _ _).symm

/-! ## Layers -/

variable [IsStrictOrderedRing R]

/-- **A matrix times a vector.** -/
theorem matvec_eq (hO : SameNumbers O np) (hm : m.Sized) {name : List UInt8} {off n d : Nat}
    (h : HasMatrix r file m name off n d) (hn : tqGroupSize ∣ n) (hlt : n < 2 ^ 31) {x y : Nat → R}
    (hx : ∀ i < n, x i = y i) :
    ∃ out, r.matvec np name x n d = some out ∧ ∀ i < d, out i = project O file m off n y i := by
  obtain ⟨t, hget, hdtype, hpay, hlen⟩ := h
  obtain ⟨q, s, hun, hrows⟩ := unpackWeight_spec hO hm.quantized hn hlt hlen
  unfold Reader.matvec
  simp only [hget, hdtype, hun, Option.bind_eq_bind, Option.bind_some]
  rw [if_neg (not_not.mpr (Nat.mod_eq_zero_of_dvd hn))]
  refine ⟨_, rfl, fun i hi => ?_⟩
  have hend := Nat.mul_le_mul_left (tqDtypeNbytes m.qtype n) (Nat.succ_le_of_lt hi)
  rw [Nat.mul_succ] at hend
  have hrow : slice t.payload (tqDtypeNbytes m.qtype n * i) (tqDtypeNbytes m.qtype n) =
      matrixRow file m off n i := by
    rw [hpay, slice_slice hend]
    rfl
  have hdot := (hrows i).dot (TinyLlm.quantized O y)
  rw [hrow] at hdot
  refine Eq.trans ?_ hdot.symm
  refine sum_congr rfl fun b hb => ?_
  have hblock : TinyLlm.quantized O y b = TinyLlm.quantized O x b := by
    refine quantizeBlock_congr O fun j hj => (hx _ ?_).symm
    have hend := Nat.mul_le_mul_right tqGroupSize (Nat.succ_le_of_lt (mem_range.mp hb))
    rw [Nat.succ_mul, Nat.div_mul_cancel hn] at hend
    omega
  obtain ⟨hscale, hcodes⟩ := quantizeAct_eq hO x b
  rw [hblock, ← hscale]
  congr 3
  exact sum_congr rfl fun k hk => congrArg (q i b k * ·) (hcodes k (mem_range.mp hk))

/-- **The feed-forward half** of a layer. -/
theorem feedForward_eq (hO : SameNumbers O np) (hm : m.Sized) (hr : SameModel r file m np) {l : Nat}
    (hl : l < m.nLayers) {x y : Nat → R} (hx : ∀ i < m.dim, x i = y i) :
    ∃ w h₁ h₃ o, r.array np (layerName l .rmsFfn) = some w ∧
      r.matvec np (layerName l .w1) (rmsnorm np m.dim x w r.cfg.normEps) m.dim
      m.hiddenDim = some h₁ ∧
      r.matvec np (layerName l .w3) (rmsnorm np m.dim x w r.cfg.normEps) m.dim
        m.hiddenDim = some h₃ ∧
      r.matvec np (layerName l .w2) (fun i => h₁ i / (1 + np.exp (-h₁ i)) * h₃ i) m.hiddenDim
        m.dim = some o ∧
      ∀ i < m.dim, x i + o i = feedForwardOut O file m l y i := by
  have hmat := hr.matrices l hl
  have hcols : m.dim ≠ 0 := hm.dim_pos.ne'
  obtain ⟨w, hw, hxb⟩ := normed_eq hO hr (hr.norms l hl .rmsFfn rfl) hx
  obtain ⟨h₁, hh₁, hh₁v⟩ := matvec_eq (n := m.dim) (d := m.hiddenDim) hO hm
    (hmat .w1 hcols) hm.dim_blocks hm.dim_lt hxb
  obtain ⟨h₃, hh₃, hh₃v⟩ := matvec_eq (n := m.dim) (d := m.hiddenDim) hO hm
    (hmat .w3 hcols) hm.dim_blocks hm.dim_lt hxb
  obtain ⟨o, ho, hov⟩ := matvec_eq (n := m.hiddenDim) (d := m.dim) hO hm
    (hmat .w2 hm.hiddenDim_pos.ne') hm.hiddenDim_blocks hm.hiddenDim_lt
    fun i hi => swiglu_eq hO (hh₁v i hi) (hh₃v i hi)
  refine ⟨w, h₁, h₃, o, hw, hh₁, hh₃, ho, fun i hi => ?_⟩
  rw [hx i hi, hov i hi]
  exact (hO.add _ _).symm

/-- The vector that runs through the layers. -/
def HasState (m : TqModel) (s : RefState R) (x : Nat → R) : Prop := ∀ i < m.dim, s.x i = x i

/-- The row of a layer at a position. -/
def HasRow (m : TqModel) (s : RefState R) (l t : Nat) (row : KvRow R) : Prop :=
  ∀ i < m.kvDim, s.kc l t i = row.key i ∧ s.vc l t i = row.value i

omit [Field R] [LinearOrder R] [IsStrictOrderedRing R] in
/-- A row of one layer is replaced. -/
theorem update_row_of_ne (kc : Nat → Nat → Nat → R) {l pos l' t : Nat} (h : l' ≠ l ∨ t ≠ pos)
    (k : Nat → R) :
    Function.update kc l (Function.update (kc l) pos k) l' t = kc l' t := by
  by_cases hlayer : l' = l
  · subst hlayer
    rw [Function.update_self, Function.update_of_ne (h.resolve_left fun hne => hne rfl)]
  · rw [Function.update_of_ne hlayer]

/-- **A round** over the layers: what it makes of a state and of the rows behind
the position, and what it leaves. -/
theorem refLayer_computes (hO : SameNumbers O np) (hm : m.Sized)
    (hr : SameModel r file m np) {l : Nat} (hl : l < m.nLayers) (pos : Nat) {s : RefState R}
    {x : Nat → R} {rows : Nat → KvRow R} (hx : HasState m s x)
    (hown : rows pos = kvRowOf O file m l pos x) (hrows : ∀ t < pos, HasRow m s l t (rows t)) :
    ∃ s', refLayer np r pos l s = some s' ∧
      HasState m s' ((transformer O file m .f32).out l pos x rows) ∧ HasRow m s' l pos (rows pos) ∧
      ∀ l' t, l' ≠ l ∨ t ≠ pos → s'.kc l' t = s.kc l' t ∧ s'.vc l' t = s.vc l' t := by
  have hdim : m.headSize ∣ m.dim := ⟨m.nHeads, by rw [← hm.heads, Nat.mul_comm]⟩
  have hkvDim : m.headSize ∣ m.kvDim := ⟨m.nKvHeads, hm.kv⟩
  have hcols : m.dim ≠ 0 := hm.dim_pos.ne'
  have hmat := hr.matrices l hl
  -- the norm, and the query, the key and the value
  obtain ⟨w, hw, hxb⟩ := normed_eq hO hr (hr.norms l hl .rmsAtt rfl) hx
  obtain ⟨q₀, hq₀, hq₀v⟩ := matvec_eq (n := m.dim) (d := m.dim) hO hm (hmat .wq hcols)
    hm.dim_blocks hm.dim_lt hxb
  obtain ⟨q, hq, hqv⟩ := rope_eq hO hm hr hdim pos hq₀v
  obtain ⟨k₀, hk₀, hk₀v⟩ := matvec_eq (n := m.dim) (d := m.kvDim) hO hm (hmat .wk hcols)
    hm.dim_blocks hm.dim_lt hxb
  obtain ⟨k, hk, hkv⟩ := rope_eq hO hm hr hkvDim pos hk₀v
  obtain ⟨v, hv, hvv⟩ := matvec_eq (n := m.dim) (d := m.kvDim) hO hm (hmat .wv hcols)
    hm.dim_blocks hm.dim_lt hxb
  have hrow : ∀ i < m.kvDim, k i = (rows pos).key i ∧ v i = (rows pos).value i := by
    rw [hown]
    exact fun i hi => ⟨hkv i hi, hvv i hi⟩
  -- attention, with the row of the position among the others
  have hheld : RowsHeld m pos (Function.update (s.kc l) pos k)
      (Function.update (s.vc l) pos v) rows := by
    intro t ht i hi
    rcases Nat.lt_or_eq_of_le ht with hlt | rfl
    · rw [Function.update_of_ne hlt.ne, Function.update_of_ne hlt.ne]
      exact hrows t hlt i hi
    · rw [Function.update_self, Function.update_self]
      exact hrow i hi
  obtain ⟨att, hatt, hattv⟩ := attOut_eq hO hm hr hqv hheld
  obtain ⟨o, ho, hov⟩ := matvec_eq (n := m.dim) (d := m.dim) hO hm (hmat .wo hcols) hm.dim_blocks
    hm.dim_lt hattv
  have hmid : ∀ i < m.dim, s.x i + o i = attentionOut O file m .f32 l pos x rows i := by
    intro i hi
    rw [hx i hi, hov i hi]
    exact (hO.add _ _).symm
  obtain ⟨w', h₁, h₃, o', hw', hh₁, hh₃, ho', hout⟩ := feedForward_eq hO hm hr hl hmid
  unfold refLayer
  simp only [hr.dim, hr.hiddenDim, kvDim_eq hm hr, Option.bind_eq_bind, Option.bind_some, hw, hq₀,
    hq, hk₀, hk, hv, Function.update_self, hatt, ho, hw', hh₁, hh₃, ho']
  refine ⟨_, rfl, hout, ?_, ?_⟩
  · intro i hi
    show Function.update s.kc l _ l pos i = _ ∧ Function.update s.vc l _ l pos i = _
    simp only [Function.update_self]
    exact hrow i hi
  · intro l' t hne
    exact ⟨update_row_of_ne s.kc hne k, update_row_of_ne s.vc hne v⟩

/-- So it is a layer of the network. -/
theorem refLayer_step (hO : SameNumbers O np) (hm : m.Sized) (hr : SameModel r file m np) {l : Nat}
    (hl : l < m.nLayers) (pos : Nat) (s : RefState R) :
    ∃ s', refLayer np r pos l s = some s' ∧
      (transformer O file m .f32).LayerStep (HasState m) (HasRow m) l pos s s' := by
  -- a round does not fail, whatever it is given
  obtain ⟨rows, hown, hrows⟩ : ∃ rows : Nat → KvRow R, rows pos = kvRowOf O file m l pos s.x ∧
      ∀ t < pos, HasRow m s l t (rows t) := by
    refine ⟨fun t => if t = pos then kvRowOf O file m l pos s.x else ⟨s.kc l t, s.vc l t⟩,
      if_pos rfl, ?_⟩
    intro t ht i _
    dsimp only
    rw [if_neg ht.ne]
    exact ⟨rfl, rfl⟩
  have hstate : HasState m s s.x := fun _ _ => rfl
  obtain ⟨s', hs', -, -, hkeep⟩ := refLayer_computes hO hm hr hl pos hstate hown hrows
  refine ⟨s', hs', ?_, ?_⟩
  · intro x rows hx hown hrows
    obtain ⟨s'', hs'', hnext, hrow, -⟩ := refLayer_computes hO hm hr hl pos hx hown hrows
    obtain rfl : s' = s'' := Option.some.inj (hs'.symm.trans hs'')
    exact ⟨hnext, hrow⟩
  · intro l' _ t _ hne row hrow i hi
    obtain ⟨hk, hv⟩ := hkeep l' t hne
    rw [hk, hv]
    exact hrow i hi

/-! ## Tokens -/

/-- **A token** gives the logits of the network at its position. -/
theorem refToken_spec (hO : SameNumbers O np) (hm : m.Sized) (hr : SameModel r file m np)
    {tokens : Nat → Int} {pos : Nat} (htok : 0 ≤ tokens pos ∧ tokens pos < m.vocabSize)
    {s : RefState R} (hheld : (transformer O file m .f32).Holding (HasRow m) tokens pos s) :
    ∃ s' logits, refToken np r pos (tokens pos).toNat s = some (s', logits) ∧
      (∀ i < m.vocabSize, logits i = (transformer O file m .f32).answers tokens pos i) ∧
      (transformer O file m .f32).Holding (HasRow m) tokens (pos + 1) s' := by
  obtain ⟨x, hx, hxv⟩ := embed_eq hO hm hr (show (tokens pos).toNat < m.vocabSize by omega)
  have hround : ∀ l s, ∃ s', l < m.nLayers → refLayer np r pos l s = some s' ∧
      (transformer O file m .f32).LayerStep (HasState m) (HasRow m) l pos s s' := by
    intro l s
    by_cases hl : l < m.nLayers
    · obtain ⟨s', h⟩ := refLayer_step hO hm hr hl pos s
      exact ⟨s', fun _ => h⟩
    · exact ⟨s, fun h => absurd h hl⟩
  choose next hnext using hround
  have hloop := @forUpM_of_some _ (refLayer np r pos) next { s with x := x } m.nLayers
    fun l hl s => (hnext l s hl).1
  obtain ⟨hstate, hheld'⟩ := Net.pass (s := fun l => forUp l next { s with x := x })
    (fun l hl => (hnext l _ hl).2) hxv fun l hl t ht => hheld l hl t ht
  have hlast : ∀ i < m.dim, (forUp m.nLayers next { s with x := x }).x i =
      (transformer O file m .f32).hidden tokens m.nLayers pos i := hstate
  obtain ⟨w, hw, hxf⟩ := normed_eq hO hr hr.rmsFinal hlast
  obtain ⟨logits, hlogits, hlogitsv⟩ := matvec_eq hO hm hr.classifier hm.dim_blocks hm.dim_lt hxf
  refine ⟨forUp m.nLayers next { s with x := x }, logits, ?_, hlogitsv, hheld'⟩
  unfold refToken
  simp only [hr.dim, hr.nLayers, hr.vocabSize, Option.bind_eq_bind, hx, Option.bind_some,
    hloop, hw, hlogits]

/-- **A run** from arrays that hold the first `k` positions. -/
theorem refTokens_spec (hO : SameNumbers O np) (hm : m.Sized) (hr : SameModel r file m np)
    {tokens : Nat → Int} {last : Nat}
    (htok : ∀ pos < last, 0 ≤ tokens pos ∧ tokens pos < m.vocabSize) :
    ∀ (n k : Nat) {s : RefState R}, k + n ≤ last →
      (transformer O file m .f32).Holding (HasRow m) tokens k s →
      ∃ out, refTokens np r k ((List.range' k n).map fun pos => (tokens pos).toNat) s = some out ∧
        out.map (fun logits => (List.range m.vocabSize).map logits) = (List.range' k n).map
        fun pos =>
          (List.range m.vocabSize).map ((transformer O file m .f32).answers tokens pos)
  | 0, _, _, _, _ => ⟨[], rfl, rfl⟩
  | n + 1, k, s, hlast, hheld => by
      obtain ⟨s', logits, hstep, hlogits, hheld'⟩ :=
        refToken_spec hO hm hr (htok k (by omega)) hheld
      obtain ⟨out, hout, hrest⟩ := refTokens_spec hO hm hr htok n (k + 1) (by omega) hheld'
      refine ⟨logits :: out, ?_, ?_⟩
      · rw [List.range'_succ, List.map_cons, refTokens, hstep]
        simp only [Option.bind_eq_bind, Option.bind_some, hout]
      · rw [List.range'_succ, List.map_cons, List.map_cons, hrest]
        exact congrArg (· :: _) (List.map_congr_left fun i hi => hlogits i (List.mem_range.mp hi))

end Oracle

end TinyLlm.Etq
