/-
# `TinyLlm.Chat.Heard` — what a framer makes of the text read so far

Reading goes on until a framer sees the prompt.  Whether it does is said of the
text alone: the text read so far, cleaned, is past the echo, its unfinished
line begins with the prompt (`showsPrompt`), and no footer in it holds a number
that Python refuses (`refusesFooter`).

`Heard` relates a framer between two pieces to the text that it was given.
What is due of the framer over any text to come is what is due of a fresh one
over all of it (`CameTo`); a turn that does not see the prompt preserves this
(`turn_cameTo`), and `feed_heard` says what the next piece leads to.
-/
import TinyLlm.Chat.Footer

namespace TinyLlm

/-! ## The text alone -/

section text

variable {F : Type*} (U : PyUnicode) (P : PyFloat F)

/-- The finished lines of a text behind the echo, if one is to come. -/
def linesBehind (echo : Option Text) (T : Text) : Option (List Text) :=
  match echo with
  | none => some (lines (cleaned T)).1
  | some cmd => behindEcho cmd [] (lines (cleaned T)).1

/-- The text is past the echo, and its unfinished line begins with the prompt. -/
def showsPrompt (echo : Option Text) (T : Text) : Bool :=
  (linesBehind echo T).isSome && prompt.isPrefixOf (lines (cleaned T)).2

/-- The text holds a footer with a number that Python refuses. -/
def refusesFooter (expectFooter : Bool) (echo : Option Text) (T : Text) : Bool :=
  match linesBehind echo T with
  | none => false
  | some ls =>
      expectFooter && decide (footerMark ∈ ls) &&
        match footerStats U P ls with
        | .error _ => true
        | .ok _ => false

/-- The framer that reads behind this echo. -/
def freshFramer (expectFooter : Bool) : Option Text → ShellFramer
  | none => { ShellFramer.new expectFooter [] with state := .stream }
  | some cmd => ShellFramer.new expectFooter cmd

/-- What a text is to a fresh framer. -/
def heardCourse (expectFooter : Bool) (echo : Option Text) (T : Text) : Course F :=
  due U P (freshFramer expectFooter echo) (lines (cleaned T)).1 (lines (cleaned T)).2

variable {U P}

theorem heardCourse_eq (expectFooter : Bool) (echo : Option Text) (T : Text) :
    heardCourse U P expectFooter echo T =
      match linesBehind echo T with
      | none => ⟨[], none⟩
      | some ls => textEvents U P (streaming expectFooter) ls (lines (cleaned T)).2 := by
  cases echo with
  | none => rfl
  | some cmd =>
      unfold heardCourse due
      rw [if_pos (show (freshFramer expectFooter (some cmd)).state = .echo from rfl)]
      rfl

theorem refusesFooter_eq_true {expectFooter : Bool} {echo : Option Text} {T : Text} :
    refusesFooter U P expectFooter echo T = true ↔
      ∃ ls, linesBehind echo T = some ls ∧ FooterRaises U P expectFooter ls := by
  unfold refusesFooter FooterRaises
  cases linesBehind echo T with
  | none => simp
  | some ls =>
      simp only [Option.some.injEq, exists_eq_left', Bool.and_eq_true, decide_eq_true_eq,
        and_assoc]
      rcases footerStats U P ls with e | st
      · simp
      · simp

/-- Something is raised just when a footer is refused. -/
theorem heardCourse_raised {expectFooter : Bool} {echo : Option Text} {T : Text} :
    (heardCourse U P expectFooter echo T).raised = none ↔
      refusesFooter U P expectFooter echo T = false := by
  rw [heardCourse_eq, ← Bool.not_eq_true, refusesFooter_eq_true]
  cases linesBehind echo T with
  | none => simp
  | some ls =>
      dsimp only
      rw [textEvents_raised, raised_iff]
      simp

/-- And the end is due just when the prompt is shown, and nothing refused. -/
theorem heardCourse_done {expectFooter : Bool} {echo : Option Text} {T : Text} :
    .done ∈ (heardCourse U P expectFooter echo T).events ↔
      refusesFooter U P expectFooter echo T = false ∧ showsPrompt echo T = true := by
  have hraised := @heardCourse_raised F U P expectFooter echo T
  rw [heardCourse_eq] at hraised ⊢
  rw [← hraised, showsPrompt]
  cases linesBehind echo T with
  | none => simp
  | some ls =>
      dsimp only
      rw [textEvents_raised]
      by_cases hok : (lineEvents U P (streaming expectFooter) ls).raised = none
      · have hfront : (behindLines U P (streaming expectFooter) ls).lineIsText = false := by
          cases ls with
          | nil => rfl
          | cons l ls => exact behindLines_lineIsText _ _ _
        rw [textEvents_of_ok hok, List.mem_append, lastEvents, hfront]
        simp only [done_notMem_lineEvents, hok, true_and, false_or, Option.isSome_some,
          Bool.true_and]
        split_ifs with hp <;> simp [hp]
      · rw [textEvents_eq]
        rcases hraised' : (lineEvents U P (streaming expectFooter) ls).raised with _ | e
        · exact absurd hraised' hok
        · simp [done_notMem_lineEvents]

end text

/-! ## Following a text -/

section cameTo

variable {F : Type*} (U : PyUnicode) (P : PyFloat F)

/-- `CameTo f₀ C fr`: the framer is where `f₀` came to over the cleaned text
`C`.  Whatever is still to come, the same is raised in the end, and the end is
seen. -/
structure CameTo (f₀ : ShellFramer) (C : Text) (fr : ShellFramer) : Prop where
  sound : Sound fr
  raised : ∀ {R ls p ls₀ p₀}, Lined (fr.buf ++ R) ls p → Lined (C ++ R) ls₀ p₀ →
    (due U P f₀ ls₀ p₀).raised = (due U P fr ls p).raised
  done : ∀ {R ls p ls₀ p₀}, Lined (fr.buf ++ R) ls p → Lined (C ++ R) ls₀ p₀ →
    (.done ∈ (due U P f₀ ls₀ p₀).events ↔ .done ∈ (due U P fr ls p).events)

variable {U P}

theorem Event.Same.done_iff {a b : List (Event F)} (h : Event.Same a b) :
    .done ∈ a ↔ .done ∈ b := by
  rw [← Event.done_mem_controls, h.2, Event.done_mem_controls]

theorem follows_start {f₀ : ShellFramer} (hsound : Sound f₀) (hbuf : f₀.buf = []) :
    CameTo U P f₀ [] f₀ where
  sound := hsound
  raised := by
    intro R ls p ls₀ p₀ h h₀
    rw [hbuf] at h
    obtain ⟨rfl, rfl⟩ := h.unique h₀
    rfl
  done := by
    intro R ls p ls₀ p₀ h h₀
    rw [hbuf] at h
    obtain ⟨rfl, rfl⟩ := h.unique h₀
    exact Iff.rfl

/-- **The step lemma.**  A turn that does not see the prompt goes along. -/
theorem turn_cameTo {f₀ fr fr' : ShellFramer} {C : Text} {evs : List (Event F)} {go : Bool}
    (h : CameTo U P f₀ C fr) (hturn : turn U P fr = (fr', .ok (evs, go))) (hdone : .done ∉ evs) :
    CameTo U P f₀ C fr' := by
  have hmoves : ∀ R, ∃ ls p ls' p', Sound fr' ∧ Lined (fr.buf ++ R) ls p ∧
      Lined (fr'.buf ++ R) ls' p' ∧ (due U P fr ls p).Same ((due U P fr' ls' p').behind evs) := by
    intro R
    have hlined := lined_lines (fr.buf ++ R)
    rcases turn_advances (U := U) (P := P) h.sound hlined with
      ⟨fr₁, evs₁, go₁, ls', p', hturn₁, hsound', hlined', hsame, -, -, -⟩ |
        ⟨fr₁, hturn₁, -⟩ | ⟨fr₁, e, hturn₁, -⟩
    · rw [hturn] at hturn₁
      cases hturn₁
      exact ⟨_, _, ls', p', hsound', hlined, hlined', hsame⟩
    · rw [hturn] at hturn₁
      cases hturn₁
      exact absurd List.mem_cons_self hdone
    · rw [hturn] at hturn₁
      cases hturn₁
  refine ⟨?_, ?_, ?_⟩
  · obtain ⟨_, _, _, _, hsound', -⟩ := hmoves []
    exact hsound'
  · intro R ls' p' ls₀ p₀ hl' hl₀
    obtain ⟨ls, p, ls'', p'', -, hlined, hlined', hsame⟩ := hmoves R
    obtain ⟨rfl, rfl⟩ := hl'.unique hlined'
    exact (h.raised hlined hl₀).trans hsame.2
  · intro R ls' p' ls₀ p₀ hl' hl₀
    obtain ⟨ls, p, ls'', p'', -, hlined, hlined', hsame⟩ := hmoves R
    obtain ⟨rfl, rfl⟩ := hl'.unique hlined'
    rw [h.done hlined hl₀, hsame.1.done_iff, Course.behind, List.mem_append]
    exact or_iff_right hdone

theorem turns_cameTo {f₀ : ShellFramer} {C : Text} : ∀ (n : Nat) {fr fr' : ShellFramer}
    {evs : List (Event F)}, CameTo U P f₀ C fr → turns U P n fr = (fr', .ok evs) →
    .done ∉ evs → CameTo U P f₀ C fr' := by
  intro n
  induction n with
  | zero =>
      intro fr fr' evs h hturns _
      cases hturns
      exact h
  | succ n ih =>
      intro fr fr' evs h hturns hdone
      rcases hturn : turn U P fr with ⟨fr₁, e | ⟨evs₁, go⟩⟩
      · rw [turns_error hturn] at hturns
        cases hturns
      · cases go with
        | false =>
            rw [turns_wait U P hturn] at hturns
            cases hturns
            exact turn_cameTo h hturn hdone
        | true =>
            rcases hrest : turns U P n fr₁ with ⟨fr₂, e | evs₂⟩
            · rw [turns_again_error hturn hrest] at hturns
              cases hturns
            · rw [turns_again U P hturn hrest] at hturns
              cases hturns
              rw [List.mem_append, not_or] at hdone
              exact ih (turn_cameTo h hturn hdone.1) hrest hdone.2

/-- The text still to come may join the buffer. -/
theorem CameTo.more {f₀ fr : ShellFramer} {C : Text} (h : CameTo U P f₀ C fr) (x raw : Text) :
    CameTo U P f₀ (C ++ x) { fr with raw := raw, buf := fr.buf ++ x } where
  sound := h.sound
  raised := by
    intro R ls p ls₀ p₀ hl hl₀
    rw [List.append_assoc] at hl₀
    exact h.raised (by rw [← List.append_assoc]; exact hl) hl₀
  done := by
    intro R ls p ls₀ p₀ hl hl₀
    rw [List.append_assoc] at hl₀
    exact h.done (by rw [← List.append_assoc]; exact hl) hl₀

end cameTo

/-! ## Piece by piece -/

section heard

variable {F : Type*} (U : PyUnicode) (P : PyFloat F)

/-- The framer was given the text `T`, and has not come to an end over it. -/
structure Heard (expectFooter : Bool) (echo : Option Text) (T : Text) (fr : ShellFramer) :
    Prop where
  raw : fr.raw = (Held.clear.scan T).2.text
  cameTo : CameTo U P (freshFramer expectFooter echo) (cleaned T) fr

variable {U P}

theorem heard_fresh (expectFooter : Bool) (echo : Option Text) :
    Heard U P expectFooter echo [] (freshFramer expectFooter echo) where
  raw := by cases echo <;> rfl
  cameTo := by
    refine follows_start ?_ ?_
    · cases echo <;> simp [Sound, freshFramer, ShellFramer.new]
    · cases echo <;> rfl

theorem cleaned_append (T data : Text) : cleaned (T ++ data) =
    cleaned T ++ noCr ((Held.clear.scan T).2.scan data).1 := by
  rw [cleaned_eq, cleaned_eq, Held.scan_append, noCr_append]

variable {expectFooter : Bool} {echo : Option Text} {T : Text} {fr : ShellFramer}

/-- The next piece, with what is due of it. -/
theorem Heard.course (h : Heard U P expectFooter echo T fr) (data : Text) {ls : List Text}
    {p : Text} (hlined : Lined (fr.buf ++ noCr ((Held.clear.scan T).2.scan data).1) ls p) :
    (heardCourse U P expectFooter echo (T ++ data)).raised = (due U P fr ls p).raised ∧
      (.done ∈ (heardCourse U P expectFooter echo (T ++ data)).events ↔
        .done ∈ (due U P fr ls p).events) := by
  have hall := lined_lines (cleaned (T ++ data))
  have hmore := h.cameTo.more (noCr ((Held.clear.scan T).2.scan data).1) fr.raw
  rw [← List.append_nil (cleaned _), cleaned_append] at hall
  rw [← List.append_nil (fr.buf ++ _)] at hlined
  have hraised := hmore.raised hlined hall
  have hdone := hmore.done hlined hall
  rw [List.append_nil, ← cleaned_append] at hraised hdone
  exact ⟨hraised, hdone⟩

/-- **One piece.**  Where the text with the next piece holds a footer that is
refused, `feed` raises; where it shows the prompt, `feed` puts out the end; and
else the framer has heard the piece. -/
theorem feed_heard (h : Heard U P expectFooter echo T fr) (data : Text) :
    (refusesFooter U P expectFooter echo (T ++ data) = true ∧
        ∃ fr' e, fr.feed U P data = (fr', .error e)) ∨
      (refusesFooter U P expectFooter echo (T ++ data) = false ∧
        showsPrompt echo (T ++ data) = true ∧
        ∃ fr' evs, fr.feed U P data = (fr', .ok evs) ∧ .done ∈ evs) ∨
      (refusesFooter U P expectFooter echo (T ++ data) = false ∧
        showsPrompt echo (T ++ data) = false ∧
        ∃ fr' evs, fr.feed U P data = (fr', .ok evs) ∧ .done ∉ evs ∧
          Heard U P expectFooter echo (T ++ data) fr') := by
  have hlined := lined_lines (fr.buf ++ noCr ((Held.clear.scan T).2.scan data).1)
  obtain ⟨hraised, hdone⟩ := h.course data hlined
  have hraise := @heardCourse_raised F U P expectFooter echo (T ++ data)
  have hshow := @heardCourse_done F U P expectFooter echo (T ++ data)
  have hexpects : Expects U P { fr with
      raw := ((Held.clear.scan T).2.scan data).2.text
      buf := fr.buf ++ noCr ((Held.clear.scan T).2.scan data).1 } []
      (due U P fr (lines (fr.buf ++ noCr ((Held.clear.scan T).2.scan data).1)).1
        (lines (fr.buf ++ noCr ((Held.clear.scan T).2.scan data).1)).2) := by
    refine .intro h.cameTo.sound ?_ (.inl rfl)
    rw [List.append_nil]
    exact hlined
  rcases feed_expects h.raw data hexpects with
    ⟨fr', evs, c', hfeed, -, hsame, hnot, hend⟩ | ⟨fr', evs, hfeed, a, b, rfl, -, hsame⟩ |
      ⟨fr', e, lost, hfeed, -, hsame⟩
  · obtain rfl := hend rfl
    have hfalse := hraise.mp (hraised.trans hsame.2)
    right
    right
    refine ⟨hfalse, ?_, fr', evs, hfeed, hnot, ?_, ?_⟩
    · rw [← Bool.not_eq_true]
      intro hp
      have hmem := hsame.1.done_iff.mp (hdone.mp (hshow.mpr ⟨hfalse, hp⟩))
      simp only [Course.behind, List.append_nil] at hmem
      exact hnot hmem
    · have hraw := feed_raw U P h.raw data
      rw [hfeed] at hraw
      rw [hraw, Held.scan_append]
    · rw [cleaned_append]
      rw [feed_scan U P h.raw] at hfeed
      exact turns_cameTo _ (h.cameTo.more _ _) hfeed hnot
  · have hmem := hshow.mp (hdone.mpr (hsame.1.done_iff.mpr (by simp)))
    exact .inr (.inl ⟨hmem.1, hmem.2, fr', _, hfeed, by simp⟩)
  · left
    refine ⟨?_, fr', e, hfeed⟩
    rw [← Bool.not_eq_false]
    intro hfalse
    have hnone := (hraise.mpr hfalse).symm.trans (hraised.trans hsame.2)
    cases hnone

end heard

end TinyLlm
