/-
# `TinyLlm.Model.Walk` — what the walk over the directory resolves

The walk handles one entry at a time and remembers what it found.  In the end
a global tensor has the first entry of its name (`TqWant.settle`), a layer
tensor the last one (`layersAfter`), and each entry that was looked at passed
its checks (`Admissible`).  `tqWalk_ok` says that the walk returns exactly this.
-/
import TinyLlm.Model.Open

namespace TinyLlm

open Bytes

/-! ## Entries and what they match -/

namespace TqTensorEntry

/-- The bounds check and the alignment check. -/
def InFile (e : TqTensorEntry) (fileBytes : Nat) : Prop :=
  (e.offset + e.nbytes) % 2 ^ 64 ≤ fileBytes ∧ e.offset % tqAlign = 0

/-- The dtype and the shape a want asks for. -/
def Fits (e : TqTensorEntry) (w : TqWant) : Prop := e.dtype = w.dtype ∧ w.shapeOk e = true

/-- The layer tensor that the entry names. -/
def spells (e : TqTensorEntry) : Option (Nat × TqLayerSlot) :=
  if e.name.getD 0 0 ≠ 108 ∨ e.name.getD 4 0 ≠ 46 then none
  else (tqLayerSlot e.name).map fun s => (tqLayerNumber e.name, s)

/-- The dtype and the shape of a layer tensor. -/
def FitsSlot (e : TqTensorEntry) (m : TqModel) (s : TqLayerSlot) : Prop :=
  e.dtype = s.dtype m ∧ e.shape0 = s.rows m ∧
    (if s.cols m ≠ 0 then e.ndim = 2 ∧ e.shape1 = s.cols m else e.ndim = 1)

end TqTensorEntry

/-- What a want has after some entries: the first that has its name. -/
def TqWant.settle (es : List TqTensorEntry) (w : TqWant) : TqWant :=
  (es.find? fun e => tqNameEq e.name w.name).elim w w.take

/-- The offset of a layer tensor after some entries: that of the last one. -/
def layersAfter (es : List TqTensorEntry) (nLayers l : Nat) : TqLayerOffsets := fun s =>
  if l < nLayers then (es.reverse.find? fun e => e.spells = some (l, s)).elim 0
    TqTensorEntry.offset else 0

/-- The checks that an entry goes through when the entries `pre` came before. -/
structure Admissible (m : TqModel) (ws : List TqWant) (pre : List TqTensorEntry)
    (e : TqTensorEntry) :
    Prop where
  inFile : e.InFile m.hdr.fileBytes
  global : ∀ w ∈ ws, tqNameEq e.name w.name = true →
    (∀ d ∈ pre, tqNameEq d.name w.name = false) → e.Fits w
  layer : ∀ l s, e.spells = some (l, s) → l < m.nLayers → e.FitsSlot m s

/-- Wants of different names, none of them found yet. -/
structure Fresh (ws : List TqWant) : Prop where
  distinct : ws.Pairwise fun w w' => ∀ name, name.length = tqNameBytes →
    tqNameEq name w.name = true → tqNameEq name w'.name = false
  new : ∀ w ∈ ws, w.found = false

/-! ## One entry -/

section Step
variable {m : TqModel} {ws : List TqWant} {pre : List TqTensorEntry} {e : TqTensorEntry}

theorem settle_name (w : TqWant) : (w.settle pre).name = w.name := by
  unfold TqWant.settle
  cases pre.find? fun e => tqNameEq e.name w.name <;> rfl

theorem settle_required (w : TqWant) : (w.settle pre).required = w.required := by
  unfold TqWant.settle
  cases pre.find? fun e => tqNameEq e.name w.name <;> rfl

theorem settle_found {w : TqWant} (hw : w.found = false) :
    (w.settle pre).found = true ↔ ∃ d ∈ pre, tqNameEq d.name w.name = true := by
  unfold TqWant.settle
  cases hf : pre.find? fun e => tqNameEq e.name w.name with
  | none =>
      rw [List.find?_eq_none] at hf
      refine ⟨fun h => ?_, fun ⟨d, hd, hn⟩ => absurd hn (hf d hd)⟩
      exact absurd (hw.symm.trans h) Bool.false_ne_true
  | some d =>
      exact ⟨fun _ => ⟨d, List.mem_of_find?_eq_some hf, by simpa using List.find?_some hf⟩,
        fun _ => rfl⟩

theorem settle_skip {w : TqWant} (h : tqNameEq e.name w.name = false) :
    w.settle (pre ++ [e]) = w.settle pre := by
  unfold TqWant.settle
  rw [List.find?_append, List.find?_cons_of_neg (by simpa using h), List.find?_nil, Option.or_none]

theorem settle_done {w : TqWant} (h : ∃ d ∈ pre, tqNameEq d.name w.name = true) :
    w.settle (pre ++ [e]) = w.settle pre := by
  unfold TqWant.settle
  cases hf : pre.find? fun e => tqNameEq e.name w.name with
  | none =>
      obtain ⟨d, hd, hn⟩ := h
      exact absurd hn (List.find?_eq_none.mp hf d hd)
  | some d => rw [List.find?_append, hf, Option.some_or]

theorem settle_take {w : TqWant} (h : tqNameEq e.name w.name = true)
    (hpre : ∀ d ∈ pre, tqNameEq d.name w.name = false) :
    w.settle pre = w ∧ w.settle (pre ++ [e]) = w.take e := by
  have hnone : (pre.find? fun d => tqNameEq d.name w.name) = none :=
    List.find?_eq_none.mpr fun d hd => by simp [hpre d hd]
  unfold TqWant.settle
  rw [List.find?_append, hnone, List.find?_singleton, if_pos h]
  exact ⟨rfl, rfl⟩

/-- **Matching an entry** against the wants. -/
theorem tqMatch_settle (hws : Fresh ws) (hlen : e.name.length = tqNameBytes) (ws' : List TqWant) :
    tqMatch (ws.map (TqWant.settle pre)) e = .ok ws' ↔
      (∀ w ∈ ws, tqNameEq e.name w.name = true →
        (∀ d ∈ pre, tqNameEq d.name w.name = false) → e.Fits w) ∧
      ws' = ws.map (TqWant.settle (pre ++ [e])) := by
  induction ws generalizing ws' with
  | nil =>
      rw [List.map_nil, tqMatch, List.map_nil]
      exact ⟨fun h => ⟨nofun, by cases h; rfl⟩, fun h => by rw [h.2]⟩
  | cons w ws ih =>
      have hrest : Fresh ws := ⟨hws.distinct.of_cons,
        fun v hv => hws.new v (List.mem_cons_of_mem w hv)⟩
      have hw := hws.new w List.mem_cons_self
      rw [List.map_cons, tqMatch, settle_name, List.map_cons]
      by_cases hskip : (w.settle pre).found = true ∨ ¬ tqNameEq e.name w.name = true
      · -- the want is left alone, and `e` goes on to the next
        have hsame : w.settle (pre ++ [e]) = w.settle pre := by
          rcases hskip with hf | hn
          · exact settle_done ((settle_found hw).mp hf)
          · exact settle_skip (by simpa using hn)
        rw [if_pos hskip, hsame]
        constructor
        · intro h
          cases hm : tqMatch (ws.map (TqWant.settle pre)) e with
          | error rc =>
              rw [hm] at h
              cases h
          | ok vs =>
              rw [hm] at h
              cases h
              obtain ⟨hfit, rfl⟩ := (ih hrest vs).mp hm
              refine ⟨fun v hv hn hpre => ?_, rfl⟩
              rcases List.mem_cons.mp hv with rfl | hv
              · rcases hskip with hf | hnot
                · obtain ⟨d, hd, hdn⟩ := (settle_found hw).mp hf
                  exact absurd hdn (by simp [hpre d hd])
                · exact absurd hn hnot
              · exact hfit v hv hn hpre
        · rintro ⟨hfit, rfl⟩
          have hm := (ih hrest _).mpr ⟨fun v hv => hfit v (List.mem_cons_of_mem w hv), rfl⟩
          rw [hm]
          rfl
      · -- the first entry of this name
        rw [if_neg hskip]
        obtain ⟨hnf, hname⟩ := not_or.mp hskip
        have hname : tqNameEq e.name w.name = true := not_not.mp hname
        have hpre : ∀ d ∈ pre, tqNameEq d.name w.name = false := by
          intro d hd
          by_contra hd'
          exact hnf ((settle_found hw).mpr ⟨d, hd, by simpa using hd'⟩)
        obtain ⟨hold, hnew⟩ := settle_take hname hpre
        have hothers : ws.map (TqWant.settle (pre ++ [e])) = ws.map (TqWant.settle pre) :=
          List.map_congr_left fun v hv =>
            settle_skip ((List.pairwise_cons.mp hws.distinct).1 v hv e.name hlen hname)
        rw [hold, hnew, hothers]
        constructor
        · intro h
          by_cases hdt : e.dtype ≠ w.dtype
          · rw [if_pos hdt] at h
            cases h
          · rw [if_neg hdt] at h
            by_cases hsh : ¬ w.shapeOk e = true
            · rw [if_pos hsh] at h
              cases h
            · rw [if_neg hsh] at h
              cases h
              refine ⟨fun v hv hn _ => ?_, rfl⟩
              rcases List.mem_cons.mp hv with rfl | hv
              · exact ⟨not_not.mp hdt, not_not.mp hsh⟩
              · have := (List.pairwise_cons.mp hws.distinct).1 v hv e.name hlen hname
                exact absurd hn (by simp [this])
        · rintro ⟨hfit, rfl⟩
          obtain ⟨hdt, hsh⟩ := hfit w List.mem_cons_self hname hpre
          rw [if_neg (not_not.mpr hdt), if_neg (not_not.mpr hsh)]

theorem layersAfter_skip {n l : Nat} {s : TqLayerSlot} (h : l < n → e.spells ≠ some (l, s)) :
    layersAfter (pre ++ [e]) n l s = layersAfter pre n l s := by
  unfold layersAfter
  by_cases hl : l < n
  · rw [if_pos hl, if_pos hl, List.reverse_append, List.reverse_singleton, List.singleton_append,
      List.find?_cons_of_neg (by simpa using h hl)]
  · rw [if_neg hl, if_neg hl]

theorem layersAfter_last {n l : Nat} {s : TqLayerSlot} (h : e.spells = some (l, s)) (hl : l < n) :
    layersAfter (pre ++ [e]) n l s = e.offset := by
  unfold layersAfter
  rw [if_pos hl, List.reverse_append, List.reverse_singleton, List.singleton_append,
    List.find?_cons_of_pos (by simpa using h)]
  rfl

theorem layersAfter_append {n l : Nat} {s : TqLayerSlot} (h : e.spells = some (l, s)) (hl : l < n) :
    layersAfter (pre ++ [e]) n = Function.update (layersAfter pre n) l
      (Function.update (layersAfter pre n l) s e.offset) := by
  funext l' s'
  by_cases hs : l' = l ∧ s' = s
  · obtain ⟨rfl, rfl⟩ := hs
    rw [layersAfter_last h hl, Function.update_self]
    exact (Function.update_self (f := layersAfter pre n l') s' e.offset).symm
  · rw [layersAfter_skip fun _ he => hs ?_]
    · by_cases hl' : l' = l
      · subst hl'
        rw [Function.update_self]
        exact
          (Function.update_of_ne (f := layersAfter pre n l') (fun h => hs ⟨rfl, h⟩) e.offset).symm
      · rw [Function.update_of_ne hl']
    · rw [h] at he
      cases he
      exact ⟨rfl, rfl⟩

/-- **The layer part** of the walk. -/
theorem tqWalkLayer_after (L' : Nat → TqLayerOffsets) :
    tqWalkLayer m (layersAfter pre m.nLayers) e = .ok L' ↔
      (∀ l s, e.spells = some (l, s) → l < m.nLayers → e.FitsSlot m s) ∧
      L' = layersAfter (pre ++ [e]) m.nLayers := by
  have hskip : (∀ l s, e.spells = some (l, s) → ¬ l < m.nLayers) →
      ((.ok (layersAfter pre m.nLayers) : Except TqStatus _) = .ok L' ↔
        (∀ l s, e.spells = some (l, s) → l < m.nLayers → e.FitsSlot m s) ∧
        L' = layersAfter (pre ++ [e]) m.nLayers) := by
    intro hno
    have hsame : layersAfter (pre ++ [e]) m.nLayers = layersAfter pre m.nLayers := by
      funext l s
      exact layersAfter_skip fun hl he => hno l s he hl
    rw [hsame]
    exact ⟨fun h => ⟨fun l s he hl => absurd hl (hno l s he), by cases h; rfl⟩,
      fun h => by rw [h.2]⟩
  unfold tqWalkLayer
  by_cases hl : e.name.getD 0 0 ≠ 108 ∨ e.name.getD 4 0 ≠ 46
  · rw [if_pos hl]
    refine hskip fun l s he => ?_
    rw [TqTensorEntry.spells, if_pos hl] at he
    cases he
  · have hsp : e.spells = (tqLayerSlot e.name).map fun s => (tqLayerNumber e.name, s) := if_neg hl
    rw [if_neg hl]
    dsimp only
    revert hsp
    generalize tqLayerNumber e.name = k
    intro hsp
    by_cases hlt : k ≥ m.nLayers
    · rw [if_pos hlt]
      refine hskip fun l s he => ?_
      rw [hsp, Option.map_eq_some_iff] at he
      obtain ⟨_, _, he⟩ := he
      cases he
      exact Nat.not_lt.mpr hlt
    · rw [if_neg hlt]
      cases hs : tqLayerSlot e.name with
      | none =>
          refine hskip fun l s he => ?_
          rw [hsp, hs] at he
          cases he
      | some s =>
          rw [hs] at hsp
          dsimp only
          rw [layersAfter_append hsp (Nat.not_le.mp hlt)]
          have honly : (∀ l s', e.spells = some (l, s') → l < m.nLayers → e.FitsSlot m s') ↔
              e.FitsSlot m s := by
            refine ⟨fun h => h _ s hsp (Nat.not_le.mp hlt), fun h l s' he _ => ?_⟩
            rw [hsp] at he
            cases he
            exact h
          rw [honly]
          unfold TqTensorEntry.FitsSlot
          by_cases hdt : e.dtype ≠ s.dtype m
          · rw [if_pos hdt]
            exact ⟨nofun, fun h => absurd h.1.1 hdt⟩
          · rw [if_neg hdt]
            by_cases hc : s.cols m ≠ 0
            · rw [if_pos hc, if_pos hc]
              by_cases hsh : e.ndim ≠ 2 ∨ e.shape0 ≠ s.rows m ∨ e.shape1 ≠ s.cols m
              · rw [if_pos hsh]
                refine ⟨nofun, fun h => ?_⟩
                omega
              · rw [if_neg hsh]
                exact ⟨fun h => ⟨by omega, by cases h; rfl⟩, fun h => by rw [h.2]⟩
            · rw [if_neg hc, if_neg hc]
              by_cases hsh : e.ndim ≠ 1 ∨ e.shape0 ≠ s.rows m
              · rw [if_pos hsh]
                refine ⟨nofun, fun h => ?_⟩
                omega
              · rw [if_neg hsh]
                exact ⟨fun h => ⟨by omega, by cases h; rfl⟩, fun h => by rw [h.2]⟩

/-- **One entry of the directory.** -/
theorem tqWalkEntry_step (hws : Fresh ws) (hlen : e.name.length = tqNameBytes) (s' : TqWalk) :
    tqWalkEntry m ⟨ws.map (TqWant.settle pre), layersAfter pre m.nLayers⟩ e = .ok s' ↔
      Admissible m ws pre e ∧
      s' = ⟨ws.map (TqWant.settle (pre ++ [e])), layersAfter (pre ++ [e]) m.nLayers⟩ := by
  unfold tqWalkEntry
  constructor
  · intro h
    split_ifs at h with h₁ h₂
    cases hm : tqMatch (ws.map (TqWant.settle pre)) e with
    | error rc =>
        rw [hm] at h
        cases h
    | ok ws' =>
        rw [hm] at h
        obtain ⟨hglobal, rfl⟩ := (tqMatch_settle hws hlen ws').mp hm
        cases hl : tqWalkLayer m (layersAfter pre m.nLayers) e with
        | error rc =>
            dsimp only at h
            rw [hl] at h
            cases h
        | ok L' =>
            dsimp only at h
            rw [hl] at h
            obtain ⟨hlayer, rfl⟩ := (tqWalkLayer_after L').mp hl
            cases h
            exact ⟨⟨⟨Nat.not_lt.mp h₁, not_not.mp h₂⟩, hglobal, hlayer⟩, rfl⟩
  · rintro ⟨hadm, rfl⟩
    rw [if_neg (Nat.not_lt.mpr hadm.inFile.1), if_neg (not_not.mpr hadm.inFile.2),
      (tqMatch_settle hws hlen _).mpr ⟨hadm.global, rfl⟩]
    dsimp only
    rw [(tqWalkLayer_after _).mpr ⟨hadm.layer, rfl⟩]
    rfl

end Step

/-! ## The whole walk -/

theorem foldlM_walk {m : TqModel} {ws : List TqWant} (hws : Fresh ws) :
    ∀ (es pre : List TqTensorEntry) (s' : TqWalk), (∀ e ∈ es, e.name.length = tqNameBytes) →
      (es.foldlM (tqWalkEntry m) ⟨ws.map (TqWant.settle pre), layersAfter pre m.nLayers⟩ = .ok s' ↔
        (∀ mid e post, es = mid ++ e :: post → Admissible m ws (pre ++ mid) e) ∧
        s' = ⟨ws.map (TqWant.settle (pre ++ es)), layersAfter (pre ++ es) m.nLayers⟩)
  | [], pre, s', _ => by
      rw [List.foldlM_nil, List.append_nil]
      exact ⟨fun h => ⟨fun mid e post h => absurd h (by simp), by cases h; rfl⟩,
        fun h => by rw [h.2]; rfl⟩
  | e :: es, pre, s', hlen => by
      have hstep := @tqWalkEntry_step m ws pre e hws (hlen e List.mem_cons_self)
      have hrest := foldlM_walk (m := m) hws es (pre ++ [e]) s'
        fun d hd => hlen d (List.mem_cons_of_mem e hd)
      rw [List.append_assoc, List.singleton_append] at hrest
      rw [List.foldlM_cons]
      constructor
      · intro h
        cases hs : tqWalkEntry m ⟨ws.map (TqWant.settle pre), layersAfter pre m.nLayers⟩ e with
        | error rc =>
            rw [hs] at h
            cases h
        | ok s₁ =>
            rw [hs] at h
            obtain ⟨hadm, rfl⟩ := (hstep s₁).mp hs
            obtain ⟨hall, rfl⟩ := hrest.mp h
            refine ⟨fun mid d post hmid => ?_, rfl⟩
            cases mid with
            | nil =>
                cases hmid
                rwa [List.append_nil]
            | cons a mid =>
                cases hmid
                have := hall mid d post rfl
                rwa [List.append_assoc, List.singleton_append] at this
      · rintro ⟨hall, rfl⟩
        have hadm := hall [] e es rfl
        rw [List.append_nil] at hadm
        rw [(hstep _).mpr ⟨hadm, rfl⟩]
        refine hrest.mpr ⟨fun mid d post hmid => ?_, rfl⟩
        have := hall (e :: mid) d post (by rw [hmid]; rfl)
        rwa [List.append_assoc, List.singleton_append]

/-- A name that is not cut off is compared as a C string. -/
theorem tqNameEq_iff : ∀ {name want : List UInt8}, (∀ c ∈ want, c ≠ 0) → want.length < name.length →
    (tqNameEq name want = true ↔ cstr name = want)
  | c :: name, [], _, _ => by
      rw [tqNameEq, cstr, List.takeWhile_cons]
      by_cases hc : c = 0
      · simp [hc]
      · simp [hc]
  | c :: name, w :: want, h0, hlen => by
      have hw : w ≠ 0 := h0 w List.mem_cons_self
      have ih := tqNameEq_iff (fun d hd => h0 d (List.mem_cons_of_mem w hd))
        (Nat.lt_of_succ_lt_succ hlen)
      rw [tqNameEq, cstr, List.takeWhile_cons]
      by_cases hcw : c ≠ w
      · rw [if_pos hcw]
        refine ⟨nofun, fun h => ?_⟩
        split at h
        · cases h
          exact absurd rfl hcw
        · cases h
      · have hcw : c = w := not_not.mp hcw
        subst hcw
        rw [if_neg (not_not.mpr rfl), if_neg hw, ih, if_pos (by simpa using hw)]
        exact ⟨fun h => congrArg _ h, fun h => (List.cons.inj h).2⟩

theorem tqWants_names (m : TqModel) : (tqWants m).map TqWant.name =
    [ascii "tok_emb", ascii "rms_final", ascii "cls", ascii "tok.scores", ascii "tok.offs",
      ascii "tok.blob", ascii "tok.sorted"] := rfl

theorem tqWants_fresh (m : TqModel) : Fresh (tqWants m) := by
  constructor
  · have hnames : ((tqWants m).map TqWant.name).Pairwise fun a b =>
        (a ≠ b ∧ a.all (· != 0) = true ∧ a.length < tqNameBytes) ∧ b.all (· != 0) = true ∧
          b.length < tqNameBytes := by
      rw [tqWants_names]
      decide
    refine (List.pairwise_map.mp hnames).imp ?_
    rintro w w' ⟨⟨hne, hw, hwl⟩, hw', hwl'⟩ name hlen h
    simp only [List.all_eq_true, bne_iff_ne] at hw hw'
    rw [← hlen] at hwl hwl'
    rw [tqNameEq_iff hw hwl] at h
    refine Bool.eq_false_iff.mpr fun h' => hne ?_
    rw [tqNameEq_iff hw' hwl'] at h'
    exact h.symm.trans h'
  · intro w hw
    simp only [tqWants, List.mem_cons, List.not_mem_nil, or_false] at hw
    rcases hw with rfl | rfl | rfl | rfl | rfl | rfl | rfl <;> rfl

/-- **The walk**: it returns when every entry is admissible after those before
it, with the first entry of each global name and the last of each layer tensor. -/
theorem tqWalk_ok {m : TqModel} {es : List TqTensorEntry}
    (hlen : ∀ e ∈ es, e.name.length = tqNameBytes) (s : TqWalk) :
    es.foldlM (tqWalkEntry m) ⟨tqWants m, fun _ _ => 0⟩ = .ok s ↔
      (∀ pre e post, es = pre ++ e :: post → Admissible m (tqWants m) pre e) ∧
      s = ⟨(tqWants m).map (TqWant.settle es), layersAfter es m.nLayers⟩ := by
  have hwants : (tqWants m).map (TqWant.settle []) = tqWants m := List.map_id _
  have hlayers : layersAfter [] m.nLayers = fun _ _ => 0 := by
    funext l t
    exact ite_self 0
  have h := foldlM_walk (m := m) (tqWants_fresh m) es [] s hlen
  rw [hwants, hlayers] at h
  exact h

end TinyLlm
