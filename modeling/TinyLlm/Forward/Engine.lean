/-
# `TinyLlm.Forward.Engine` — the engine as a function of the tokens

The programs around the engine, the two ends of a message and the two
generators, feed tokens at positions 0, 1, 2 and so on and look at the logits.
What they see is a function of the tokens fed so far, for one file and one type
of cache (`engineLogits`): it depends neither on what the buffers held nor on
the length of the context.

A machine that was fed `p` is `Primed` with it.  Nothing but its cache counts,
so a caller may scribble over the activations, as the sampler does, and go on.
An engine `Serves` when no step at a token and a position in range fails; one
over a mapped image does, when its tensors are in the image (`mapped_serves`).
-/
import TinyLlm.Forward.Context
import TinyLlm.Forward.Tile

namespace TinyLlm

open Bytes Footprints Relational

/-! ## What a run shows -/

section Shown
variable {F M : Type} [TqMemory F M] (O : FloatOps F) (st : TqStore) (m : TqModel)

/-- `rt->logits`, `vocab_size` floats. -/
def TqMachine.logits (s : TqMachine M) : Nat → F := fun i =>
  ((List.range m.vocabSize).map (TqMemory.f s.mem .logits)).getD i (O.ofInt 0)

/-- The logits of each step of a run from position 0, in a context of just that
length. -/
def engineSeen (kv : TqKv) (tokens : List Int) : List (Except Fault (List F)) :=
  logitsSeen m.vocabSize
    (tqFeed O st m ⟨tokens.length, kv, [], []⟩ (callsFrom 0 tokens) (TqMachine.zeroed O))

/-- The logits after a run. -/
def engineLogits (kv : TqKv) (tokens : List Int) : Nat → F := fun i =>
  match (engineSeen O st m kv tokens).getLast? with
  | some (.ok logits) => logits.getD i (O.ofInt 0)
  | _ => O.ofInt 0

variable {O st m} {rt : TqRuntime}

/-- Any machine shows what the engine does. -/
theorem logitsSeen_engine (hm : m.Sized) {tokens : List Int} (hlen : tokens.length ≤ rt.maxSeq)
    (s : TqMachine (TqMem F)) :
    logitsSeen m.vocabSize (tqFeed O st m rt (callsFrom 0 tokens) s) =
      engineSeen O st m rt.kvDtype tokens := by
  cases tokens with
  | nil => rfl
  | cons token tokens =>
      have ha : Alongside (TqMem F) m rt ⟨(token :: tokens).length, rt.kvDtype, [], []⟩ :=
        ⟨rfl, hm, ⟨Nat.succ_pos _, hlen⟩, lawful_named _⟩
      exact logitsSeen_shorter O st ha (Nat.le_refl _) s _

/-! ## Machines that were fed -/

variable (O st m rt) in
/-- The cache holds the tokens `p`, fed from position 0 on. -/
def Primed (p : List Int) (s : TqMachine M) : Prop :=
  ∃ s₀ : TqMachine (TqMem F), (∀ r ∈ tqFeed O st m rt (callsFrom 0 p) s₀, r.1 = .ok ()) ∧
    Agree (cached m rt p.length) (machineAfter O st m rt (callsFrom 0 p) s₀).mem
    (TqMemory.get s.mem)

theorem primed_nil (s : TqMachine M) : Primed O st m rt [] s := by
  refine ⟨s.named, fun _ hr => absurd hr List.not_mem_nil, fun l hl => ?_⟩
  obtain ⟨_, _, t, ht, _⟩ := (mem_cached rt).mp hl
  exact absurd ht (Nat.not_lt_zero t)

/-- A step on a token or a position out of range changes nothing. -/
theorem tqForward_range {token : Int} {pos : Nat}
    (h : token < 0 ∨ token ≥ m.vocabSize ∨ pos ≥ rt.maxSeq) (s : TqMachine M) :
    (tqForward O st m rt token pos).exec s = (.error (.status .errRange), s) := by
  unfold tqForward
  by_cases htoken : token < 0 ∨ token ≥ m.vocabSize
  · rw [if_pos htoken]
    rfl
  · rw [if_neg htoken, if_pos (by omega)]
    rfl

theorem feed_snoc (p : List Int) (token : Int) (s : TqMachine M) :
    tqFeed O st m rt (callsFrom 0 (p ++ [token])) s = tqFeed O st m rt (callsFrom 0 p) s ++
        [(tqForward O st m rt token p.length).exec (machineAfter O st m rt (callsFrom 0 p) s)] ∧
      machineAfter O st m rt (callsFrom 0 (p ++ [token])) s =
        ((tqForward O st m rt token p.length).exec
        (machineAfter O st m rt (callsFrom 0 p) s)).2 := by
  have hrun : callsFrom 0 (p ++ [token]) = callsFrom 0 p ++ [(token, (p.length : Int))] := by
    rw [callsFrom_append, Nat.zero_add]
    rfl
  rw [hrun, tqFeed_append, machineAfter_append]
  exact ⟨rfl, rfl⟩

/-- What was fed had room. -/
theorem Primed.length_le {p : List Int} {s : TqMachine M} (h : Primed O st m rt p s) :
    p.length ≤ rt.maxSeq := by
  obtain ⟨s₀, hok, -⟩ := h
  rcases List.eq_nil_or_concat p with rfl | ⟨q, token, rfl⟩
  · exact Nat.zero_le _
  · rw [List.concat_eq_append] at hok ⊢
    rw [List.length_append, List.length_singleton]
    refine Nat.not_le.mp fun hle => ?_
    rw [(feed_snoc q token s₀).1] at hok
    have hlast := hok _ (List.mem_append_right _ (List.mem_singleton_self _))
    rw [tqForward_range (.inr (.inr hle))] at hlast
    cases hlast

/-- The rows that were stored are among the elements of the cache. -/
theorem cached_subset_live {n : Nat} (hn : n ≤ rt.maxSeq) : cached m rt n ⊆ live m rt := by
  intro l hl
  obtain ⟨layer, hlayer, t, ht, hrow⟩ := (mem_cached rt).mp hl
  exact cacheRow_live hlayer (ht.trans_le hn) hrow

/-- A machine whose cache is the same. -/
theorem Primed.of_shows {p : List Int} {s : TqMachine M} {t : TqMachine (TqMem F)}
    (h : Primed O st m rt p t) (hst : Shows m rt s t) : Primed O st m rt p s := by
  have hin := cached_subset_live (m := m) h.length_le
  obtain ⟨s₀, hok, hagree⟩ := h
  rw [get_named] at hagree
  exact ⟨s₀, hok, fun l hl => (hagree l hl).trans (hst l (hin hl)).symm⟩

/-- A machine that differs in its activations only. -/
theorem Primed.scribble {p : List Int} {s s' : TqMachine M} (h : Primed O st m rt p s)
    (hkeep : ∀ l ∈ live m rt, l ∉ activations → TqMemory.get s'.mem l = TqMemory.get s.mem l) :
    Primed O st m rt p s' := by
  have hin := cached_subset_live (m := m) h.length_le
  obtain ⟨s₀, hok, hagree⟩ := h
  refine ⟨s₀, hok, fun l hl => (hagree l hl).trans (hkeep l (hin hl) fun hact => ?_).symm⟩
  obtain ⟨layer, _, t, _, hrow⟩ := (mem_cached rt).mp hl
  exact activations_not_cache m rt hact layer t hrow

variable (m) in
/-- What a step shows. -/
def shown (r : Except Fault Unit × TqMachine M) : Except Fault (List F) :=
  r.1.map fun _ => (List.range m.vocabSize).map (TqMemory.f r.2.mem .logits)

theorem logitsSeen_snoc {a : List (Except Fault Unit × TqMachine M)} (h : ∀ r ∈ a, r.1 = .ok ())
    (r : Except Fault Unit × TqMachine M) :
    logitsSeen m.vocabSize (a ++ [r]) = logitsSeen m.vocabSize a ++ [shown m r] := by
  rw [logitsSeen_append _ h]
  rcases r with ⟨e | u, s⟩
  · rfl
  · rfl

/-- A step of a lawful memory shows what a step with buffers apart does. -/
theorem shown_named (hm : m.Sized) (hl : Lawful M (live m rt)) (token pos : Int) (s : TqMachine M) :
    shown m ((tqForward O st m rt token pos).exec s) =
      shown m ((tqForward O st m rt token pos).exec s.named) := by
  have hstep := tqForward_shows O st hm hl token pos s s.named (shows_named s)
  rcases hr : (tqForward O st m rt token pos).exec s with ⟨e | u, s'⟩
  · rw [hr] at hstep
    obtain ⟨t', ht⟩ := hstep.2 trivial
    rw [ht]
    rfl
  · rw [hr] at hstep
    obtain ⟨u', t', ht, hend⟩ := hstep
    rw [ht]
    exact congrArg Except.ok hend.logits

/-- **A step** from a machine that was fed `p` shows what the engine does. -/
theorem Primed.seen (hm : m.Sized) (hl : Lawful M (live m rt)) {p : List Int} {s : TqMachine M}
    (h : Primed O st m rt p s) (token : Int) (hroom : p.length < rt.maxSeq) :
    engineSeen O st m rt.kvDtype (p ++ [token]) = engineSeen O st m rt.kvDtype p ++
      [shown m ((tqForward O st m rt token p.length).exec s)] := by
  rw [shown_named hm hl]
  obtain ⟨s₀, hok, hagree⟩ := h
  have hlen : (p ++ [token]).length ≤ rt.maxSeq := by
    rw [List.length_append, List.length_singleton]
    exact hroom
  have hdet := tqForward_det O st rt hm token p.length _ s.named hagree
  rw [← logitsSeen_engine hm hlen s₀, (feed_snoc p token s₀).1, logitsSeen_snoc hok,
    logitsSeen_engine hm hroom.le s₀]
  congr 2
  rcases hr : (tqForward O st m rt token p.length).exec
    (machineAfter O st m rt (callsFrom 0 p) s₀) with ⟨e | u, t⟩
  · rw [hr] at hdet
    obtain ⟨t', ht'⟩ := hdet.2 trivial
    rw [ht']
    rfl
  · rw [hr] at hdet
    obtain ⟨u', t', ht', hend⟩ := hdet
    rw [ht']
    refine congrArg Except.ok (List.map_congr_left fun i hi => ?_)
    exact hend (.f .logits i) (.inr (mem_span_zero (List.mem_range.mp hi)))

/-- A step that returns leaves its token in the cache and the engine's logits. -/
theorem Primed.step (hm : m.Sized) (hl : Lawful M (live m rt)) {p : List Int} {s s' : TqMachine M}
    (h : Primed O st m rt p s) {token : Int}
    (hstep : (tqForward O st m rt token p.length).exec s = (.ok (), s')) :
    Primed O st m rt (p ++ [token]) s' ∧
      s'.logits O m = engineLogits O st m rt.kvDtype (p ++ [token]) := by
  have hroom : p.length < rt.maxSeq := by
    refine Nat.not_le.mp fun hle => ?_
    rw [tqForward_range (.inr (.inr hle))] at hstep
    cases hstep
  have hseen := h.seen hm hl token hroom
  obtain ⟨u, t', ht', hshows⟩ := (tqForward_shows O st hm hl token p.length).of_ok
    (shows_named s) (congrArg Prod.fst hstep)
  rw [hstep] at hshows
  obtain ⟨s₀, hok, hagree⟩ := h
  obtain ⟨hfeed, hafter⟩ := @feed_snoc F (TqMem F) _ O st m rt p token s₀
  have hdet := tqForward_det O st rt hm token p.length s.named _ fun l hl => (hagree l hl).symm
  rw [ht'] at hdet
  obtain ⟨u, t, ht, hend⟩ := hdet
  rw [ht] at hfeed hafter
  have hprimed : Primed O st m rt (p ++ [token]) t' := by
    refine ⟨s₀, ?_, ?_⟩
    · rw [hfeed]
      intro r hr
      rcases List.mem_append.mp hr with hr | hr
      · exact hok r hr
      · rw [List.mem_singleton.mp hr]
    · rw [hafter, List.length_append, get_named]
      exact fun l hl => (hend l (.inl hl)).symm
  refine ⟨hprimed.of_shows hshows, ?_⟩
  funext i
  unfold TqMachine.logits engineLogits
  rw [hseen, hstep, List.getLast?_concat]
  rfl

end Shown

/-! ## Engines that do not fail -/

section Serves
variable {F M : Type} [TqMemory F M] (O : FloatOps F)

/-- No step at a token and a position in range fails. -/
structure Serves {F : Type} (O : FloatOps F) (st : TqStore) (m : TqModel) : Prop where
  sized : m.Sized
  returns : ∀ {M : Type} [TqMemory F M] (rt : TqRuntime) (token pos : Int),
    0 ≤ token ∧ token < m.vocabSize → 0 ≤ pos ∧ pos < rt.maxSeq →
    Returns (tqForward O st m rt token pos : Tq (TqMachine M) Unit)

variable {image : List UInt8} {bytes : UInt64} {m : TqModel}

/-- A range of a mapped image is found there. -/
theorem mapped_viewed_returns {off n k : Nat} (hlen : image.length < 2 ^ 64)
    (hbytes : bytes.toNat = image.length) (hview : off + n ≤ image.length)
    (hin : off + k ≤ image.length) (rc : TqStatus) {f : List UInt8 → Tq (TqMachine M) Unit}
    (hf : ∀ bs, Returns (f bs)) :
    Returns (onTile (viewOr (tqStoreInitMapped image bytes) off n rc) >>=
      fun v => onTile (deref v k) >>= f) := by
  intro s
  have hfetch : (tqStoreInitMapped image bytes).fetch off n =
      some (image.drop off, (image.drop off).length) := by
    have hend : ¬ off + n > (tqStoreInitMapped image bytes).bytes.toNat :=
      Nat.not_lt.mpr (hview.trans hbytes.ge)
    unfold TqStore.fetch
    rw [Nat.mod_eq_of_lt (hview.trans_lt hlen), if_neg hend]
    rfl
  have hroom : k ≤ (image.drop off).length := by
    rw [List.length_drop]
    omega
  obtain ⟨t, hexec⟩ := viewed_exec (tqStoreInitMapped image bytes) off n k rc s
  rw [hfetch] at hexec
  dsimp only at hexec
  rw [if_pos hroom] at hexec
  rw [← bind_assoc, exec_bind_ok hexec]
  exact hf _ _

theorem mapped_norm_returns (hlen : image.length < 2 ^ 64) (hbytes : bytes.toNat = image.length)
    (out src : TqBuf) {wOff n : Nat} (hin : wOff + n * 4 ≤ image.length) (eps : F) :
    Returns (tqNorm O (tqStoreInitMapped image bytes) out src wOff n eps : Tq
      (TqMachine M) Unit) := by
  have hview : wOff + n * 4 % 2 ^ 32 ≤ image.length :=
    (Nat.add_le_add_left (Nat.mod_le _ _) _).trans hin
  unfold tqNorm
  exact mapped_viewed_returns hlen hbytes hview hin .errIo fun _ => onMem_returns _

theorem mapped_matrix_returns (hlen : image.length < 2 ^ 64) (hbytes : bytes.toNat = image.length)
    (hm : m.Sized) {n d : Nat} (hblocks : tqGroupSize ∣ n) (hpos : 0 < n) (hlt : n < 2 ^ 31)
    (out : TqBuf) (acts : TqQuant) {wOff : Nat}
    (hin : wOff + payloadBytes m.qtype (d * n) ≤ image.length) :
    Returns (tqMatvec O (tqStoreInitMapped image bytes) out wOff m.qtype n d acts :
      Tq (TqMachine M) Unit) := by
  obtain ⟨hrow, hrow0⟩ := rowBytes_eq hm.quantized hblocks hpos hlt
  rw [payloadBytes_rows hm.quantized hblocks, ← hrow] at hin
  have hgood : ¬ (tqDtypeNbytes m.qtype n = 0 ∨ n % tqGroupSize ≠ 0) := by
    rintro (h | h)
    · exact hrow0.ne' h
    · exact h (Nat.mod_eq_zero_of_dvd hblocks)
  have hknown : ¬ (m.qtype ≠ tqDtQ40 ∧ m.qtype ≠ tqDtQ80) := by
    rintro ⟨h40, h80⟩
    exact hm.quantized.elim h40 h80
  have hroom : tqDtypeNbytes m.qtype n * d ≤ (image.drop wOff).length := by
    rw [List.length_drop]
    omega
  have hend : ¬ wOff + tqDtypeNbytes m.qtype n * d > bytes.toNat :=
    Nat.not_lt.mpr (hin.trans hbytes.ge)
  unfold tqMatvec
  dsimp only [tqStoreInitMapped]
  rw [if_neg hgood]
  refine (Returns.modify _).bind fun _ => ?_
  simp only [Nat.mod_eq_of_lt (hin.trans_lt hlen), hend, hknown, if_false]
  intro s
  have hderef : (onTile (deref (.direct (image.drop wOff)) (tqDtypeNbytes m.qtype n * d)) :
      Tq (TqMachine M) _).exec s =
        (.ok ((image.drop wOff).take (tqDtypeNbytes m.qtype n * d)), s) := by
    rw [onTile_exec, behind_direct, if_pos hroom]
  exact ⟨(), _, exec_bind_ok hderef⟩

theorem mapped_row_returns (hlen : image.length < 2 ^ 64) (hbytes : bytes.toNat = image.length)
    (hm : m.Sized) {token : Nat} (htoken : token < m.vocabSize) {baseOff : Nat}
    (hin : baseOff + payloadBytes m.qtype (m.vocabSize * m.dim) ≤ image.length) :
    Returns (tqRowToFloat O (tqStoreInitMapped image bytes) baseOff m.qtype m.dim token .x :
      Tq (TqMachine M) Unit) := by
  obtain ⟨hrow, hrow0⟩ := rowBytes_eq hm.quantized hm.dim_blocks hm.dim_pos hm.dim_lt
  rw [payloadBytes_rows hm.quantized hm.dim_blocks, ← hrow] at hin
  have hnext := Nat.mul_le_mul_left (tqDtypeNbytes m.qtype m.dim) (Nat.succ_le_of_lt htoken)
  rw [Nat.mul_succ] at hnext
  have hend : baseOff + tqDtypeNbytes m.qtype m.dim * token + tqDtypeNbytes m.qtype m.dim ≤
      image.length := by omega
  have hview := (Nat.add_le_add_left (Nat.mod_le (tqDtypeNbytes m.qtype m.dim) (2 ^ 32))
    (baseOff + tqDtypeNbytes m.qtype m.dim * token)).trans hend
  unfold tqRowToFloat
  dsimp only
  rw [if_neg hrow0.ne',
    Nat.mod_eq_of_lt (by omega : baseOff + tqDtypeNbytes m.qtype m.dim * token < 2 ^ 64)]
  exact mapped_viewed_returns hlen hbytes hview hend .errIo fun _ => onMem_returns _

theorem mapped_layer_returns (hlen : image.length < 2 ^ 64) (hbytes : bytes.toNat = image.length)
    (hm : m.Sized) {l : Nat} (hin : ∀ s : TqLayerSlot, m.layers l s + s.payload m ≤ image.length)
    (rt : TqRuntime) (pos : Nat) (invSqrtHs : F) :
    Returns (do
      tqAttention O (tqStoreInitMapped image bytes) m rt l pos invSqrtHs
      tqFeedForward O (tqStoreInitMapped image bytes) m l : Tq (TqMachine M) Unit) := by
  have hdim : ∀ {n : Nat} {s : TqLayerSlot}, s.dtype m = m.qtype → s.rows m = n → s.cols m = m.dim →
      ∀ out acts, Returns (tqMatvec O (tqStoreInitMapped image bytes) out (m.layers l s) m.qtype
        m.dim n acts : Tq (TqMachine M) Unit) := by
    intro n s hdtype hn hcols out acts
    have hs := hin s
    rw [TqLayerSlot.payload, hdtype, hcols, if_neg hm.dim_pos.ne', hn] at hs
    exact mapped_matrix_returns O hlen hbytes hm hm.dim_blocks hm.dim_pos hm.dim_lt out acts hs
  have hhidden : ∀ out acts,
      Returns (tqMatvec O (tqStoreInitMapped image bytes) out (m.layers l .w2) m.qtype m.hiddenDim
      m.dim acts : Tq (TqMachine M) Unit) := by
    intro out acts
    have hs := hin .w2
    rw [TqLayerSlot.payload, TqLayerSlot.cols, if_neg hm.hiddenDim_pos.ne'] at hs
    exact mapped_matrix_returns O hlen hbytes hm hm.hiddenDim_blocks hm.hiddenDim_pos
      hm.hiddenDim_lt out acts hs
  have hop : ∀ op : M → M, Returns (onMem op) := onMem_returns
  have hatt := mapped_norm_returns (M := M) O hlen hbytes .xb .x (hin .rmsAtt) (normEps O m)
  have hffn := mapped_norm_returns (M := M) O hlen hbytes .xb .x (hin .rmsFfn) (normEps O m)
  unfold tqAttention tqFeedForward
  refine Returns.bind ?_ fun _ => ?_
  · exact hatt.bind fun _ => (hop _).bind fun _ => (hdim rfl rfl rfl _ _).bind fun _ =>
      (hdim rfl rfl rfl _ _).bind fun _ => (hdim rfl rfl rfl _ _).bind fun _ =>
      (hop _).bind fun _ => (hop _).bind fun _ => (hop _).bind fun _ => (hop _).bind fun _ =>
      (hop _).bind fun _ => (hdim rfl rfl rfl _ _).bind fun _ => hop _
  · exact hffn.bind fun _ => (hop _).bind fun _ => (hdim rfl rfl rfl _ _).bind fun _ =>
      (hdim rfl rfl rfl _ _).bind fun _ => (hop _).bind fun _ => (hop _).bind fun _ =>
      (hhidden _ _).bind fun _ => hop _

/-- **A mapped image** serves when its tensors are in it. -/
theorem mapped_serves (hbytes : bytes.toNat = image.length) (hm : m.Sized)
    (hin : SlotsInBounds image image.length m) : Serves O (tqStoreInitMapped image bytes) m := by
  have hlen : image.length < 2 ^ 64 := hbytes ▸ bytes.toNat_lt
  refine ⟨hm, fun {M} _ rt token pos htoken hpos => ?_⟩
  have hlt : token.toNat < m.vocabSize := by omega
  unfold tqForward
  rw [if_neg (by omega), if_neg (by omega)]
  unfold tqForwardAt
  dsimp only
  refine (mapped_row_returns O hlen hbytes hm hlt hin.tokEmb).bind
    fun _ => (onMem_returns _).bind fun _ => ?_
  refine (Returns.forUpTo fun l hl => mapped_layer_returns O hlen hbytes hm (hin.layers l hl) rt _
    _).bind fun _ => ?_
  refine (mapped_norm_returns O hlen hbytes .x .x hin.rmsFinal _).bind
    fun _ => (onMem_returns _).bind fun _ => ?_
  exact mapped_matrix_returns O hlen hbytes hm hm.dim_blocks hm.dim_pos hm.dim_lt _ _ hin.classifier

end Serves

end TinyLlm
