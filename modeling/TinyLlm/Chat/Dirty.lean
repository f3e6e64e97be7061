/-
# `TinyLlm.Chat.Dirty` — the flag `dirty` and the prompt still to come

`dirty` is to say that the prompt of the command issued last has not been read,
so that the next command waits for it first.  Two things break this: a
`cancel()` when the prompt was read already, be it with the very piece whose
text a dropped generator had just yielded; and a reply whose text, up to where
a read ends, shows the prompt where it is not, or does not show it where it is.

In runs in which neither happens (`fits`) the flag is right in every state
(`dirty_outstanding`).  The invariant says of each phase what is still owed, and
that the framer has heard what was read (`Phase.Accounts`); `step_accounted` is
the step lemma, `run_accounted` the run.  No condition can be left out
(`wrong_of_not_fits`).
-/
import TinyLlm.Chat.Backend
import TinyLlm.Chat.Heard

namespace TinyLlm

namespace SerialBackend

variable {F : Type*}

section runs

variable (U : PyUnicode) (P : PyFloat F) (Y : PyText F)

/-- The next `n` bytes bring the prompt to its end. -/
def brings (be : SerialBackend F) (n : Nat) : Bool := decide (be.owed.length ≤ n)

/-- The text of the next `n` bytes, decoded for itself. -/
def incoming (be : SerialBackend F) (n : Nat) : Text :=
  decodeReplace ((be.owed ++ be.extra).take n)

/-- The text read behind a step, `heard` being what was read before, since
`_resync` began or the command was written. -/
def hears (be : SerialBackend F) (heard : Text) (a : Act F) : Text :=
  match be.phase, a with
  | .resync .., .read n _ => heard ++ be.incoming n
  | .reading .., .read n _ => heard ++ be.incoming n
  | .idle, _ => []
  | .drain _, _ => []
  | _, _ => heard

/-- What a step is to fit.  `cancel()` comes while the prompt is still to be
read.  Where a read of `_resync` brings the prompt, the text read shows it;
where one of `_run` ends, the text read shows the prompt just when the read
brings it, or holds a footer that is refused and the prompt with it.  `_drain`
gives up only behind the prompt. -/
def fits (be : SerialBackend F) (heard : Text) (a : Act F) : Bool :=
  match be.phase, a with
  | .idle, .cancel => be.owed != []
  | .yielded .., .abandon => be.owed != []
  | .resync .., .read n _ => !be.brings n || showsPrompt none (heard ++ be.incoming n)
  | .drain _, .read n late => !late || be.brings n
  | .reading job .., .read n _ =>
      if refusesFooter U P job.expectFooter (some job.cmdline) (heard ++ be.incoming n) then
        be.brings n
      else be.brings n == showsPrompt (some job.cmdline) (heard ++ be.incoming n)
  | _, _ => true

/-- Every step of the run fits. -/
def fitsAll : SerialBackend F → Text → List (Act F) → Bool
  | _, _, [] => true
  | be, heard, a :: acts =>
      be.fits U P heard a &&
        match be.step U P Y a with
        | none => true
        | some (be', _) => fitsAll be' (be.hears heard a) acts

end runs

end SerialBackend

/-! ## The invariant -/

section invariant

variable {F : Type*} (U : PyUnicode) (P : PyFloat F)

/-- What is owed in each phase, and what the framer has heard. -/
def Phase.Accounts (dirty : Bool) (owed : List UInt8) (heard : Text) : Phase F → Prop
  | .idle => dirty = true ↔ owed ≠ []
  | .resync _ fr => dirty = true ∧ owed ≠ [] ∧ Heard U P false none heard fr
  | .drain _ => dirty = false
  | .reading job fr _ =>
      dirty = false ∧ owed ≠ [] ∧ Heard U P job.expectFooter (some job.cmdline) heard fr
  | .events job fr _ evs => dirty = false ∧ (owed = [] ↔ .done ∈ evs) ∧
      (.done ∉ evs → Heard U P job.expectFooter (some job.cmdline) heard fr)
  | .yielded job fr evs => dirty = false ∧ (owed = [] ↔ .done ∈ evs) ∧
      (.done ∉ evs → Heard U P job.expectFooter (some job.cmdline) heard fr)

theorem any_isDone {evs : List (Event F)} : evs.any Event.isDone = true ↔ .done ∈ evs := by
  induction evs with
  | nil => simp
  | cons e evs ih => cases e <;> simp [Event.isDone, ih]

end invariant

namespace SerialBackend

variable {F : Type*} {U : PyUnicode} {P : PyFloat F} {Y : PyText F}

variable (U P) in
def Accounted (be : SerialBackend F) (heard : Text) : Prop :=
  be.phase.Accounts U P be.dirty be.owed heard

theorem accounted_iff {be : SerialBackend F} {heard : Text} {ph : Phase F} (h : be.phase = ph) :
    be.Accounted U P heard ↔ ph.Accounts U P be.dirty be.owed heard := by
  rw [Accounted, h]

/-- A read takes bytes off what is owed and changes nothing else. -/
theorem receive_some {be be' : SerialBackend F} {n : Nat} {chunk : List UInt8}
    (h : be.receive n = some (chunk, be')) :
    chunk = (be.owed ++ be.extra).take n ∧
      be' = { be with owed := be.owed.drop n, extra := be.extra.drop (n - be.owed.length) } := by
  unfold receive at h
  split at h
  · obtain ⟨rfl, rfl⟩ := Prod.mk.inj (Option.some.inj h)
    exact ⟨rfl, rfl⟩
  · cases h

theorem brings_iff {be : SerialBackend F} {n : Nat} :
    be.brings n = true ↔ be.owed.drop n = [] := by
  rw [brings, decide_eq_true_iff, List.drop_eq_nil_iff]

theorem start_accounted {be : SerialBackend F} (h : be.dirty = true ↔ be.owed ≠ []) (job : Job) :
    (be.start job).Accounted U P [] := by
  unfold Accounted start
  by_cases hdirty : be.dirty = true
  · rw [if_pos hdirty]
    exact ⟨hdirty, h.mp hdirty, heard_fresh false none⟩
  · rw [if_neg hdirty]
    have hfalse : be.dirty = false := by simpa using hdirty
    exact hfalse

theorem call_accounted {be be' : SerialBackend F} {heard : Text} {a : Act F} {outs : List Out}
    (hphase : be.phase = .idle) (hfits : be.fits U P heard a = true) (h : be.Accounted U P heard)
    (hcall : be.call Y a = some (be', outs)) : be'.Accounted U P [] := by
  have hidle : be.dirty = true ↔ be.owed ≠ [] := (accounted_iff hphase).mp h
  unfold call at hcall
  split at hcall
  · split at hcall
    · obtain ⟨rfl, -⟩ := Prod.mk.inj (Option.some.inj hcall)
      exact (@accounted_iff F U P { be with stats := none } [] .idle hphase).mpr hidle
    · obtain ⟨rfl, -⟩ := Prod.mk.inj (Option.some.inj hcall)
      exact @start_accounted F U P { be with stats := none } hidle _
  · obtain ⟨rfl, -⟩ := Prod.mk.inj (Option.some.inj hcall)
    exact start_accounted hidle _
  · obtain ⟨rfl, -⟩ := Prod.mk.inj (Option.some.inj hcall)
    exact start_accounted hidle _
  · obtain ⟨rfl, -⟩ := Prod.mk.inj (Option.some.inj hcall)
    simp only [fits, hphase] at hfits
    exact (@accounted_iff F U P { be with dirty := true } [] .idle hphase).mpr
      ⟨fun _ => bne_iff_ne.mp hfits, fun _ => rfl⟩
  · cases hcall

theorem resync_accounted {be be' : SerialBackend F} {heard : Text} {job : Job} {fr : ShellFramer}
    {a : Act F} {outs : List Out} (hphase : be.phase = .resync job fr)
    (hfits : be.fits U P heard a = true) (h : be.Accounted U P heard)
    (hstep : be.resync U P job fr a = some (be', outs)) :
    be'.Accounted U P (be.hears heard a) := by
  obtain ⟨hdirty, hne, hheard⟩ := (accounted_iff hphase).mp h
  unfold resync at hstep
  split at hstep
  · next n late =>
      simp only [fits, hphase, Bool.or_eq_true, Bool.not_eq_true'] at hfits
      simp only [hears, hphase]
      split at hstep
      · cases hstep
      · next chunk be₁ hreceive =>
          obtain ⟨rfl, rfl⟩ := receive_some hreceive
          rcases feed_heard hheard (be.incoming n) with
            ⟨hrefuses, -⟩ | ⟨-, -, fr', evs, hfeed, hdone⟩ |
              ⟨-, hshows, fr', evs, hfeed, hdone, hheard'⟩
          · cases hrefuses
          · rw [← incoming, hfeed] at hstep
            dsimp only at hstep
            rw [if_pos (any_isDone.mpr hdone)] at hstep
            obtain ⟨rfl, -⟩ := Prod.mk.inj (Option.some.inj hstep)
            exact rfl
          · rw [← incoming, hfeed] at hstep
            dsimp only at hstep
            rw [if_neg (mt any_isDone.mp hdone)] at hstep
            obtain ⟨rfl, -⟩ := Prod.mk.inj (Option.some.inj hstep)
            refine ⟨hdirty, fun hnil => ?_, hheard'⟩
            rcases hfits with hfits | hfits
            · rw [brings_iff.mpr hnil] at hfits
              cases hfits
            · rw [hshows] at hfits
              cases hfits
  · obtain ⟨rfl, -⟩ := Prod.mk.inj (Option.some.inj hstep)
    simp only [hears, hphase]
    exact h
  · obtain ⟨rfl, -⟩ := Prod.mk.inj (Option.some.inj hstep)
    exact ⟨fun _ => hne, fun _ => hdirty⟩
  · cases hstep

theorem drain_accounted {be be' : SerialBackend F} {heard : Text} {job : Job} {a : Act F}
    {outs : List Out} (hphase : be.phase = .drain job) (hfits : be.fits U P heard a = true)
    (h : be.Accounted U P heard) (hstep : be.drain job a = some (be', outs)) :
    be'.Accounted U P [] := by
  have hdirty : be.dirty = false := (accounted_iff hphase).mp h
  unfold drain at hstep
  split at hstep
  · next n late =>
      simp only [fits, hphase, Bool.or_eq_true, Bool.not_eq_true'] at hfits
      split at hstep
      · cases hstep
      · next chunk be₁ hreceive =>
          obtain ⟨rfl, rfl⟩ := receive_some hreceive
          split at hstep
          · next hlate =>
              obtain ⟨rfl, -⟩ := Prod.mk.inj (Option.some.inj hstep)
              have hnil := brings_iff.mp (hfits.resolve_left (by rw [hlate]; decide))
              exact ⟨fun hd => absurd hd (by rw [hdirty]; decide), fun hne => absurd hnil hne⟩
          · obtain ⟨rfl, -⟩ := Prod.mk.inj (Option.some.inj hstep)
            exact (@accounted_iff F U P { be with
              owed := be.owed.drop n, extra := be.extra.drop (n - be.owed.length) } []
              (.drain job) hphase).mpr hdirty
  · obtain ⟨rfl, -⟩ := Prod.mk.inj (Option.some.inj hstep)
    exact ⟨hdirty, List.append_ne_nil_of_right_ne_nil _ (by decide), heard_fresh _ (some _)⟩
  · cases hstep

theorem runRead_accounted {be be' : SerialBackend F} {heard : Text} {job : Job} {fr : ShellFramer}
    {error : Option Text} {a : Act F} {outs : List Out} (hphase : be.phase = .reading job fr error)
    (hfits : be.fits U P heard a = true) (h : be.Accounted U P heard)
    (hstep : be.runRead U P job fr error a = some (be', outs)) :
    be'.Accounted U P (be.hears heard a) := by
  obtain ⟨hdirty, hne, hheard⟩ := (accounted_iff hphase).mp h
  unfold runRead at hstep
  split at hstep
  · next n late =>
      simp only [fits, hphase] at hfits
      simp only [hears, hphase]
      split at hstep
      · cases hstep
      · next chunk be₁ hreceive =>
          obtain ⟨rfl, rfl⟩ := receive_some hreceive
          rcases feed_heard hheard (be.incoming n) with
            ⟨hrefuses, fr', e, hfeed⟩ | ⟨hok, hshows, fr', evs, hfeed, hdone⟩ |
              ⟨hok, hshows, fr', evs, hfeed, hdone, hheard'⟩
          · -- the exception leaves `_run` with the prompt read
            rw [← incoming, hfeed] at hstep
            obtain ⟨rfl, -⟩ := Prod.mk.inj (Option.some.inj hstep)
            rw [hrefuses, if_pos rfl, brings_iff] at hfits
            exact ⟨fun hd => absurd hd (by rw [hdirty]; decide), fun hne => absurd hfits hne⟩
          · rw [← incoming, hfeed] at hstep
            obtain ⟨rfl, -⟩ := Prod.mk.inj (Option.some.inj hstep)
            rw [hok, if_neg Bool.false_ne_true, hshows, beq_iff_eq, brings_iff] at hfits
            exact ⟨hdirty, iff_of_true hfits hdone, fun hnot => absurd hdone hnot⟩
          · rw [← incoming, hfeed] at hstep
            obtain ⟨rfl, -⟩ := Prod.mk.inj (Option.some.inj hstep)
            rw [hok, if_neg Bool.false_ne_true, hshows, beq_iff_eq, ← Bool.not_eq_true,
              brings_iff] at hfits
            exact ⟨hdirty, iff_of_false hfits hdone, fun _ => hheard'⟩
  · split at hstep
    · obtain ⟨rfl, -⟩ := Prod.mk.inj (Option.some.inj hstep)
      exact ⟨fun _ => hne, fun _ => rfl⟩
    · obtain ⟨rfl, -⟩ := Prod.mk.inj (Option.some.inj hstep)
      simp only [hears, hphase]
      exact h
  · cases hstep

/-- The events bring the end exactly when nothing is owed. -/
theorem runEvents_accounted {be : SerialBackend F} {heard : Text} {job : Job} {fr : ShellFramer}
    {error : Option Text} {evs : List (Event F)} (hphase : be.phase = .events job fr error evs)
    (h : be.Accounted U P heard) : (be.runEvents job fr error evs).1.Accounted U P heard := by
  obtain ⟨hdirty, hiff, hheard⟩ := (accounted_iff hphase).mp h
  cases evs with
  | nil =>
      have hnot : (.done : Event F) ∉ [] := by simp
      exact ⟨hdirty, fun hnil => hnot (hiff.mp hnil), hheard hnot⟩
  | cons e evs =>
      -- an event that is not the end leaves the rest as it is
      have hrest : e ≠ .done → (be.owed = [] ↔ .done ∈ evs) ∧
          (.done ∉ evs → Heard U P job.expectFooter (some job.cmdline) heard fr) := by
        intro he
        have hmem : (.done : Event F) ∈ e :: evs ↔ .done ∈ evs := by
          rw [List.mem_cons]
          exact or_iff_right fun h => he h.symm
        exact ⟨hiff.trans hmem, fun hnot => hheard (mt hmem.mp hnot)⟩
      cases e with
      | text v =>
          by_cases herror : error = none
          · simp only [runEvents, herror, if_true]
            exact ⟨hdirty, hrest (by simp)⟩
          · simp only [runEvents, herror, if_false]
            exact ⟨hdirty, hrest (by simp)⟩
      | error v => exact ⟨hdirty, hrest (by simp)⟩
      | stats v => exact ⟨hdirty, hrest (by simp)⟩
      | done =>
          have hnil : be.owed = [] := hiff.mpr List.mem_cons_self
          refine ⟨fun hd => ?_, fun hne => absurd hnil hne⟩
          have hset : be.dirty = true := hd
          rw [hdirty] at hset
          cases hset

/-- **The step lemma.** -/
theorem step_accounted {be be' : SerialBackend F} {heard : Text} {a : Act F} {outs : List Out}
    (hfits : be.fits U P heard a = true) (h : be.Accounted U P heard)
    (hstep : be.step U P Y a = some (be', outs)) : be'.Accounted U P (be.hears heard a) := by
  unfold step at hstep
  split at hstep
  · next hphase =>
      simp only [hears, hphase]
      exact call_accounted hphase hfits h hstep
  · next job fr hphase => exact resync_accounted hphase hfits h hstep
  · next job hphase =>
      simp only [hears, hphase]
      exact drain_accounted hphase hfits h hstep
  · next job fr error hphase => exact runRead_accounted hphase hfits h hstep
  · next job fr error evs hphase =>
      simp only [hears, hphase]
      split at hstep
      · have hev := runEvents_accounted hphase h
        rw [Option.some.inj hstep] at hev
        exact hev
      · cases hstep
  · next job fr evs hphase =>
      have howed := (accounted_iff hphase).mp h
      simp only [hears, hphase]
      split at hstep
      · obtain ⟨rfl, -⟩ := Prod.mk.inj (Option.some.inj hstep)
        exact howed
      · split at hstep
        · obtain ⟨rfl, -⟩ := Prod.mk.inj (Option.some.inj hstep)
          simp only [fits, hphase] at hfits
          exact ⟨fun _ => bne_iff_ne.mp hfits, fun _ => rfl⟩
        · cases hstep
      · cases hstep

/-- **The run.** -/
theorem run_accounted {acts : List (Act F)} : ∀ {be be' : SerialBackend F} {heard : Text}
    {outs : List Out}, be.fitsAll U P Y heard acts = true → be.Accounted U P heard →
    be.run U P Y acts = some (be', outs) → ∃ heard', be'.Accounted U P heard' := by
  induction acts with
  | nil =>
      intro be be' heard outs _ h hrun
      obtain ⟨rfl, -⟩ := Prod.mk.inj (Option.some.inj hrun)
      exact ⟨heard, h⟩
  | cons a acts ih =>
      intro be be' heard outs hfits h hrun
      unfold run at hrun
      unfold fitsAll at hfits
      obtain ⟨hfit, hfits⟩ := Bool.and_eq_true_iff.mp hfits
      split at hrun
      · cases hrun
      · next be₁ outs₁ hstep =>
          rw [hstep] at hfits
          split at hrun
          · cases hrun
          · next be₂ outs₂ hrest =>
              obtain ⟨rfl, -⟩ := Prod.mk.inj (Option.some.inj hrun)
              exact ih hfits (step_accounted hfit h hstep) hrest

theorem accounted_new : (new : SerialBackend F).Accounted U P [] :=
  ⟨fun h => Bool.noConfusion h, fun h => absurd rfl h⟩

end SerialBackend

/-- The flag is right: set only while the prompt that ends the last command is
still to be read, so that `_resync` waits for no other, and with no call active
clear only when it was read. -/
structure FlagRight {F : Type*} (be : SerialBackend F) : Prop where
  set : be.dirty = true → be.owed ≠ []
  resync : ∀ job fr, be.phase = .resync job fr → be.owed ≠ []
  clear : be.dirty = false → be.phase = .idle → be.owed = []

theorem SerialBackend.Accounted.right {F : Type*} {U : PyUnicode} {P : PyFloat F}
    {be : SerialBackend F} {heard : Text} (h : be.Accounted U P heard) : FlagRight be := by
  unfold Accounted at h
  refine ⟨fun hd => ?_, fun job fr hp => ?_, fun hd hp => ?_⟩
  · have hclear : be.dirty = false → be.owed ≠ [] := by
      intro hc
      rw [hc] at hd
      cases hd
    cases hp : be.phase with
    | idle => rw [hp] at h; exact h.mp hd
    | resync job fr => rw [hp] at h; exact h.2.1
    | drain job => rw [hp] at h; exact hclear h
    | reading job fr error => rw [hp] at h; exact hclear h.1
    | events job fr error evs => rw [hp] at h; exact hclear h.1
    | yielded job fr evs => rw [hp] at h; exact hclear h.1
  · rw [hp] at h
    exact h.2.1
  · rw [hp] at h
    by_contra hne
    rw [h.mpr hne] at hd
    cases hd

section right

open SerialBackend

variable {F : Type*} (U : PyUnicode) (P : PyFloat F) (Y : PyText F)

/-- **The flag is right** in every state of a run whose replies, cuts and
interrupts fit. -/
theorem dirty_outstanding {acts : List (Act F)} {be : SerialBackend F} {outs : List Out}
    (hfits : (new : SerialBackend F).fitsAll U P Y [] acts = true)
    (hrun : (new : SerialBackend F).run U P Y acts = some (be, outs)) : FlagRight be := by
  obtain ⟨heard, h⟩ := run_accounted hfits accounted_new hrun
  exact h.right

/-! ## Every condition is needed -/

variable {U P Y}

theorem run_nil (be : SerialBackend F) : be.run U P Y [] = some (be, []) := rfl

theorem run_cons {be be₁ be₂ : SerialBackend F} {a : Act F} {acts : List (Act F)}
    {outs₁ outs₂ : List Out} (hstep : be.step U P Y a = some (be₁, outs₁))
    (hrun : be₁.run U P Y acts = some (be₂, outs₂)) :
    be.run U P Y (a :: acts) = some (be₂, outs₁ ++ outs₂) := by
  rw [run, hstep]
  dsimp only
  rw [hrun]

theorem run_append {acts : List (Act F)} : ∀ {be be₁ be₂ : SerialBackend F} {acts' : List (Act F)}
    {outs₁ outs₂ : List Out}, be.run U P Y acts = some (be₁, outs₁) →
    be₁.run U P Y acts' = some (be₂, outs₂) →
    be.run U P Y (acts ++ acts') = some (be₂, outs₁ ++ outs₂) := by
  induction acts with
  | nil =>
      intro be be₁ be₂ acts' outs₁ outs₂ h h'
      obtain ⟨rfl, rfl⟩ := Prod.mk.inj (Option.some.inj h)
      exact h'
  | cons a acts ih =>
      intro be be₁ be₂ acts' outs₁ outs₂ h h'
      unfold run at h
      split at h
      · cases h
      · next be₃ outs₃ hstep =>
          split at h
          · cases h
          · next be₄ outs₄ hrun =>
              obtain ⟨rfl, rfl⟩ := Prod.mk.inj (Option.some.inj h)
              rw [List.append_assoc]
              exact run_cons hstep (ih hrun h')

theorem step_next {be : SerialBackend F} {job : Job} {fr : ShellFramer} {error : Option Text}
    {evs : List (Event F)} (h : be.phase = .events job fr error evs) :
    be.step U P Y .next = some (be.runEvents job fr error evs) := by
  rw [step, h]

/-- The events of a piece can be gone through, to the end or to the next read. -/
theorem run_events {job : Job} {fr : ShellFramer} {evs : List (Event F)} :
    ∀ {be : SerialBackend F} {error : Option Text}, be.phase = .events job fr error evs →
    ∃ acts be' outs, be.run U P Y acts = some (be', outs) ∧ be'.dirty = be.dirty ∧
      be'.owed = be.owed ∧ (.done ∈ evs → be'.phase = .idle) ∧
      (.done ∉ evs → ∃ error', be'.phase = .reading job fr error') := by
  induction evs with
  | nil =>
      intro be error hphase
      have hrun := run_cons (step_next (U := U) (P := P) (Y := Y) hphase) (run_nil _)
      exact ⟨_, _, _, hrun, rfl, rfl, fun h => absurd h (by simp), fun _ => ⟨error, rfl⟩⟩
  | cons e evs ih =>
      intro be error hphase
      have hstep := step_next (U := U) (P := P) (Y := Y) hphase
      cases e with
      | text v =>
          by_cases herror : error = none
          · -- the text is yielded, and the next one asked for
            simp only [runEvents, herror, if_true] at hstep
            obtain ⟨acts, be', outs, hrun, hrest⟩ :=
              @ih { be with phase := .events job fr none evs } none rfl
            have hresume : ({ be with phase := .yielded job fr evs } : SerialBackend F).step U P Y
                .resume = some ({ be with phase := .events job fr none evs }, []) := rfl
            exact ⟨_, be', _, run_cons hstep (run_cons hresume hrun), by simpa using hrest⟩
          · simp only [runEvents, herror, if_false] at hstep
            obtain ⟨acts, be', outs, hrun, hrest⟩ :=
              @ih { be with phase := .events job fr error evs } error rfl
            exact ⟨_, be', _, run_cons hstep hrun, by simpa using hrest⟩
      | error v =>
          obtain ⟨acts, be', outs, hrun, hrest⟩ :=
            @ih { be with phase := .events job fr (error.or (some v)) evs } _ rfl
          exact ⟨_, be', _, run_cons hstep hrun, by simpa using hrest⟩
      | stats v =>
          obtain ⟨acts, be', outs, hrun, hrest⟩ :=
            @ih { be with stats := some v, phase := .events job fr error evs } error rfl
          exact ⟨_, be', _, run_cons hstep hrun, by simpa using hrest⟩
      | done =>
          have hrun := run_cons hstep (run_nil _)
          exact ⟨_, _, _, hrun, rfl, rfl, fun _ => rfl, fun h => absurd List.mem_cons_self h⟩

/-- `_resync` would go on waiting for a prompt that was read. -/
theorem resync_wrong {be be₁ : SerialBackend F} {heard : Text} {job : Job} {fr : ShellFramer}
    {n : Nat} {late : Bool} {outs₁ : List Out} (hheard : Heard U P false none heard fr)
    (hbrings : be.brings n = true) (hshows : showsPrompt none (heard ++ be.incoming n) = false)
    (hstep : be.resync U P job fr (.read n late) = some (be₁, outs₁)) : ¬ FlagRight be₁ := by
  unfold resync at hstep
  dsimp only at hstep
  split at hstep
  · cases hstep
  · next chunk be₂ hreceive =>
      obtain ⟨rfl, rfl⟩ := receive_some hreceive
      rcases feed_heard hheard (be.incoming n) with
        ⟨hrefuses, -⟩ | ⟨-, hshows', -⟩ | ⟨-, -, fr', evs, hfeed, hdone, -⟩
      · cases hrefuses
      · rw [hshows] at hshows'
        cases hshows'
      · rw [← incoming, hfeed] at hstep
        dsimp only at hstep
        rw [if_neg (mt any_isDone.mp hdone)] at hstep
        obtain ⟨rfl, -⟩ := Prod.mk.inj (Option.some.inj hstep)
        exact fun hr => hr.resync job _ rfl (brings_iff.mp hbrings)

/-- `_drain` would give up with the flag clear and the prompt to come. -/
theorem drain_wrong {be be₁ : SerialBackend F} {job : Job} {n : Nat} {late : Bool}
    {outs₁ : List Out} (hdirty : be.dirty = false) (hlate : late = true)
    (hbrings : be.brings n = false) (hstep : be.drain job (.read n late) = some (be₁, outs₁)) :
    ¬ FlagRight be₁ := by
  unfold drain at hstep
  dsimp only at hstep
  split at hstep
  · cases hstep
  · next chunk be₂ hreceive =>
      obtain ⟨rfl, rfl⟩ := receive_some hreceive
      rw [if_pos hlate] at hstep
      obtain ⟨rfl, -⟩ := Prod.mk.inj (Option.some.inj hstep)
      intro hr
      have hnil := brings_iff.mpr (hr.clear hdirty rfl)
      rw [hbrings] at hnil
      cases hnil

/-- `_run` would be left, or return, with the prompt to come; or wait for one
that was read until it times out. -/
theorem runRead_wrong {be be₁ : SerialBackend F} {heard : Text} {job : Job} {fr : ShellFramer}
    {error : Option Text} {n : Nat} {late : Bool} {outs₁ : List Out}
    (hphase : be.phase = .reading job fr error) (h : be.Accounted U P heard)
    (hbreaks : be.fits U P heard (.read n late) = false)
    (hstep : be.runRead U P job fr error (.read n late) = some (be₁, outs₁)) :
    ∃ acts be' outs, be₁.run U P Y acts = some (be', outs) ∧ ¬ FlagRight be' := by
  obtain ⟨hdirty, -, hheard⟩ := (accounted_iff hphase).mp h
  simp only [fits, hphase] at hbreaks
  unfold runRead at hstep
  dsimp only at hstep
  split at hstep
  · cases hstep
  · next chunk be₂ hreceive =>
      obtain ⟨rfl, rfl⟩ := receive_some hreceive
      rcases feed_heard hheard (be.incoming n) with
        ⟨hrefuses, fr', e, hfeed⟩ | ⟨hok, hshows, fr', evs, hfeed, hdone⟩ |
          ⟨hok, hshows, fr', evs, hfeed, hdone, -⟩
      · -- the exception leaves `_run`
        rw [← incoming, hfeed] at hstep
        obtain ⟨rfl, -⟩ := Prod.mk.inj (Option.some.inj hstep)
        rw [hrefuses, if_pos rfl] at hbreaks
        refine ⟨[], _, [], rfl, fun hr => ?_⟩
        rw [brings_iff.mpr (hr.clear hdirty rfl)] at hbreaks
        cases hbreaks
      · -- the end is handled, with the prompt to come
        rw [← incoming, hfeed] at hstep
        rw [hok, if_neg Bool.false_ne_true, hshows, beq_eq_false_iff_ne, Ne, Bool.not_eq_true]
          at hbreaks
        obtain ⟨rfl, -⟩ := Prod.mk.inj (Option.some.inj hstep)
        obtain ⟨acts, be', outs, hrun, hdirty', howed', hidle, -⟩ :=
          @run_events F U P Y job fr' evs { be with
            owed := be.owed.drop n, extra := be.extra.drop (n - be.owed.length)
            phase := .events job fr' error evs } error rfl
        refine ⟨acts, be', outs, hrun, fun hr => ?_⟩
        have hnil := howed'.symm.trans (hr.clear (hdirty'.trans hdirty) (hidle hdone))
        rw [brings_iff.mpr hnil] at hbreaks
        cases hbreaks
      · -- nothing more comes, and the deadline passes
        rw [← incoming, hfeed] at hstep
        rw [hok, if_neg Bool.false_ne_true, hshows, beq_eq_false_iff_ne, Ne,
          Bool.not_eq_false] at hbreaks
        obtain ⟨rfl, -⟩ := Prod.mk.inj (Option.some.inj hstep)
        obtain ⟨acts, be', outs, hrun, -, howed', -, hreading⟩ :=
          @run_events F U P Y job fr' evs { be with
            owed := be.owed.drop n, extra := be.extra.drop (n - be.owed.length)
            phase := .events job fr' error evs } error rfl
        obtain ⟨error', hphase'⟩ := hreading hdone
        have hquiet : ∃ outs', be'.step U P Y (.quiet true) =
            some ({ be' with dirty := true, phase := .idle }, outs') := by
          rw [step, hphase']
          exact ⟨_, rfl⟩
        obtain ⟨outs', hquiet⟩ := hquiet
        refine ⟨_, _, _, run_append hrun (run_cons hquiet (run_nil _)), fun hr => ?_⟩
        exact hr.set rfl (howed'.trans (brings_iff.mp hbreaks))

/-- A step that does not fit leads on to a state with a wrong flag. -/
theorem wrong_of_not_fits {be be₁ : SerialBackend F} {heard : Text} {a : Act F}
    {outs₁ : List Out} (h : be.Accounted U P heard) (hbreaks : be.fits U P heard a = false)
    (hstep : be.step U P Y a = some (be₁, outs₁)) :
    ∃ acts be' outs, be₁.run U P Y acts = some (be', outs) ∧ ¬ FlagRight be' := by
  have hhere : ¬ FlagRight be₁ →
      ∃ acts be' outs, be₁.run U P Y acts = some (be', outs) ∧ ¬ FlagRight be' :=
    fun hwrong => ⟨[], be₁, [], rfl, hwrong⟩
  unfold step at hstep
  split at hstep
  · next hphase =>
      cases a with
      | cancel =>
          simp only [fits, hphase, bne_eq_false_iff_eq] at hbreaks
          obtain ⟨rfl, -⟩ := Prod.mk.inj (Option.some.inj hstep)
          exact hhere fun hr => hr.set rfl hbreaks
      | _ => simp [fits, hphase] at hbreaks
  · next job fr hphase =>
      obtain ⟨-, -, hheard⟩ := (accounted_iff hphase).mp h
      cases a with
      | read n late =>
          simp only [fits, hphase, Bool.or_eq_false_iff, Bool.not_eq_false'] at hbreaks
          exact hhere (resync_wrong hheard hbreaks.1 hbreaks.2 hstep)
      | _ => simp [fits, hphase] at hbreaks
  · next job hphase =>
      cases a with
      | read n late =>
          simp only [fits, hphase, Bool.or_eq_false_iff, Bool.not_eq_false'] at hbreaks
          exact hhere (drain_wrong ((accounted_iff hphase).mp h) hbreaks.1 hbreaks.2 hstep)
      | _ => simp [fits, hphase] at hbreaks
  · next job fr error hphase =>
      cases a with
      | read n late => exact runRead_wrong hphase h hbreaks hstep
      | _ => simp [fits, hphase] at hbreaks
  · next job fr error evs hphase => simp [fits, hphase] at hbreaks
  · next job fr evs hphase =>
      cases a with
      | abandon =>
          simp only [fits, hphase, bne_eq_false_iff_eq] at hbreaks
          dsimp only at hstep
          split at hstep
          · obtain ⟨rfl, -⟩ := Prod.mk.inj (Option.some.inj hstep)
            exact hhere fun hr => hr.set rfl hbreaks
          · cases hstep
      | _ => simp [fits, hphase] at hbreaks

end right

/-! ## A dropped generator -/

def hiCommand : Text := "tinyllm gen -n 4 -t  -p  -s 7 \"Hi\"".toList

/-- The board greets, and is at its prompt again. -/
def hiReply : Reply :=
  ⟨(hiCommand ++ "\r\nHello\r\nthere\r\n".toList).flatMap String.utf8EncodeChar, []⟩

def hiCall : Act Rat := .generate "Hi".toList ⟨4, 0, 0⟩ 7 hiReply

/-- The whole reply in one read; the generator is dropped at the first text. -/
def droppedLate : List (Act Rat) :=
  [hiCall, .quiet false, .read 59 false, .next, .abandon]

/-- The generator is dropped with the prompt still to come, and `info` is asked
for. -/
def droppedEarly : List (Act Rat) :=
  [hiCall, .quiet false, .read 43 false, .next, .abandon,
    .info ⟨"tinyllm info\r\nstories15M\r\n".toList.flatMap String.utf8EncodeChar, []⟩,
    .read 10 false, .quiet false, .read 6 false, .quiet false, .read 35 false, .next,
    .resume, .next]

theorem dirty_outstanding_early : ∃ be outs,
    (SerialBackend.new : SerialBackend Rat).run asciiOnly exactFloat plainText droppedEarly =
      some (be, outs) ∧ FlagRight be := by
  have hsome : ((SerialBackend.new : SerialBackend Rat).run asciiOnly exactFloat plainText
      droppedEarly).isSome := by decide +kernel
  obtain ⟨⟨be, outs⟩, hrun⟩ := Option.isSome_iff_exists.mp hsome
  exact ⟨be, outs, hrun, dirty_outstanding asciiOnly exactFloat plainText (by decide +kernel) hrun⟩

/-- With the whole reply read before the generator is dropped, the flag is set
for a prompt that was read. -/
theorem dirty_dropped : ¬ ∀ (acts : List (Act Rat)) (be : SerialBackend Rat) (outs : List Out),
    (SerialBackend.new : SerialBackend Rat).run asciiOnly exactFloat plainText acts =
      some (be, outs) → FlagRight be := by
  intro h
  have hstate : ((SerialBackend.new : SerialBackend Rat).run asciiOnly exactFloat plainText
      droppedLate).map (fun r => (r.1.dirty, r.1.owed)) = some (true, []) := by decide +kernel
  obtain ⟨⟨be, outs⟩, hrun, heq⟩ := Option.map_eq_some_iff.mp hstate
  obtain ⟨hdirty, howed⟩ := Prod.mk.inj heq
  exact (h droppedLate be outs hrun).set hdirty howed

end TinyLlm
