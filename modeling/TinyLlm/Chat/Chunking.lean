/-
# `TinyLlm.Chat.Chunking` — the framer and where a stream is cut

Any stream, well formed or not.  `lines` parts its cleaned text into finished
lines and an unfinished one, `textEvents` says what they come to, and
`Expects` relates a framer between two pieces to the events still to come, up
to the first prompt.  `turn_advances` is the step lemma for one turn of `feed`'s
loop, `turn_expects` what it means for the events due, `feeds_expects` the run.

A finished line that begins with the prompt is left out (`Calm`): `feed` looks
for finished lines first, so the prompt is seen if a piece ends inside that
line and is not if the line comes whole.
-/
import TinyLlm.Chat.Session

namespace TinyLlm

open Event (texts controls)

/-! ## Events up to the end -/

namespace Event

variable {F : Type*}

/-- The events up to the first `done`, and that. -/
def upToDone : List (Event F) → List (Event F)
  | [] => []
  | .done :: _ => [.done]
  | e :: es => e :: upToDone es

/-- The errors, in order. -/
def errors : List (Event F) → List Text
  | [] => []
  | .error v :: es => v :: errors es
  | _ :: es => errors es

/-- The statistics, in order. -/
def statistics : List (Event F) → List (GenStats F)
  | [] => []
  | .stats v :: es => v :: statistics es
  | _ :: es => statistics es

/-- Two runs that come to the same, up to their first `done`. -/
structure Alike (a b : List (Event F)) : Prop where
  texts : texts (upToDone a) = texts (upToDone b)
  errors : errors (upToDone a) = errors (upToDone b)
  statistics : statistics (upToDone a) = statistics (upToDone b)
  done : .done ∈ a ↔ .done ∈ b

@[simp] theorem errors_append (a b : List (Event F)) : errors (a ++ b) = errors a ++ errors b := by
  induction a with
  | nil => rfl
  | cons e es ih => cases e <;> simp [errors, ih]

@[simp] theorem statistics_append (a b : List (Event F)) :
    statistics (a ++ b) = statistics a ++ statistics b := by
  induction a with
  | nil => rfl
  | cons e es ih => cases e <;> simp [statistics, ih]

theorem errors_controls (es : List (Event F)) : errors (controls es) = errors es := by
  induction es with
  | nil => rfl
  | cons e es ih => cases e <;> simp [controls, errors, ih]

theorem statistics_controls (es : List (Event F)) : statistics (controls es) = statistics es := by
  induction es with
  | nil => rfl
  | cons e es ih => cases e <;> simp [controls, statistics, ih]

theorem done_mem_controls {es : List (Event F)} : .done ∈ controls es ↔ .done ∈ es := by
  induction es with
  | nil => exact Iff.rfl
  | cons e es ih => cases e <;> simp [controls, ih]

theorem done_mem_upToDone {es : List (Event F)} : .done ∈ upToDone es ↔ .done ∈ es := by
  induction es with
  | nil => exact Iff.rfl
  | cons e es ih => cases e <;> simp [upToDone, ih]

theorem upToDone_cons {e : Event F} (he : e ≠ .done) (es : List (Event F)) :
    upToDone (e :: es) = e :: upToDone es := by
  cases e with
  | done => exact absurd rfl he
  | text v => rfl
  | error v => rfl
  | stats v => rfl

theorem upToDone_append {a : List (Event F)} (h : .done ∉ a) (b : List (Event F)) :
    upToDone (a ++ b) = a ++ upToDone b := by
  induction a with
  | nil => rfl
  | cons e es ih =>
      obtain ⟨he, hes⟩ := List.ne_and_not_mem_of_not_mem_cons h
      rw [List.cons_append, upToDone_cons (Ne.symm he), ih hes, List.cons_append]

theorem upToDone_of_notMem {es : List (Event F)} (h : .done ∉ es) : upToDone es = es := by
  simpa [upToDone] using upToDone_append h []

/-- What a run comes to up to its end, when it comes to `es` there. -/
theorem alike_iff {es es' a b : List (Event F)} (ha : Same es (upToDone a))
    (hb : Same es' (upToDone b)) :
    Alike a b ↔ texts es = texts es' ∧ errors es = errors es' ∧
      statistics es = statistics es' ∧ (.done ∈ es ↔ .done ∈ es') := by
  have herrors : ∀ {es evs : List (Event F)}, Same es evs → errors es = errors evs := by
    intro es evs h
    rw [← errors_controls es, ← errors_controls evs, h.2]
  have hstats : ∀ {es evs : List (Event F)}, Same es evs → statistics es = statistics evs := by
    intro es evs h
    rw [← statistics_controls es, ← statistics_controls evs, h.2]
  have hdone : ∀ {es evs : List (Event F)}, Same es (upToDone evs) →
      (.done ∈ es ↔ .done ∈ evs) := by
    intro es evs h
    rw [← done_mem_controls, h.2, done_mem_controls, done_mem_upToDone]
  rw [ha.1, hb.1, herrors ha, herrors hb, hstats ha, hstats hb, hdone ha, hdone hb]
  exact ⟨fun h => ⟨h.texts, h.errors, h.statistics, h.done⟩,
    fun h => ⟨h.1, h.2.1, h.2.2.1, h.2.2.2⟩⟩

end Event

/-! ## Streams by lines -/

/-- The text of a stream without control sequences and carriage returns, and
without a control sequence that is unfinished at its end. -/
def cleaned (s : Text) : Text := noCr (ansiRe.erase (ansiCut s).1)

theorem cleaned_eq (s : Text) : cleaned s = noCr (Held.clear.scan s).1 := by
  have h := (ansiCut_scan .clear s).1
  rw [Held.text_clear, List.nil_append] at h
  rw [cleaned, h]

/-- The finished lines of a text, and the unfinished one. -/
def lines (s : Text) : List Text × Text :=
  ((s.splitOn '\n').dropLast, (s.splitOn '\n').getLastD [])

/-- `ls` and `p` are the finished lines of `s` and the unfinished one. -/
structure Lined (s : Text) (ls : List Text) (p : Text) : Prop where
  text : s = unlines ls ++ p
  finished : ∀ l ∈ ls, '\n' ∉ l
  last : '\n' ∉ p

theorem unlines_append (ls ls' : List Text) : unlines (ls ++ ls') = unlines ls ++ unlines ls' :=
  List.flatMap_append

theorem lined_lines (s : Text) : Lined s (lines s).1 (lines s).2 := by
  have hne := List.splitOn_ne_nil '\n' s
  have hsplit : s.splitOn '\n' = (lines s).1 ++ [(lines s).2] := by
    rw [lines, List.getLastD_eq_getLast?, List.getLast?_eq_some_getLast hne]
    exact (List.dropLast_append_getLast hne).symm
  have htext : unlines (lines s).1 ++ (lines s).2 ++ ['\n'] = s ++ ['\n'] := by
    rw [← unlines_splitOn s, hsplit, unlines_append]
    simp
  refine ⟨(List.append_cancel_right htext).symm, ?_, ?_⟩
  · intro l hl
    exact notMem_of_mem_splitOn (hsplit ▸ List.mem_append_left _ hl)
  · exact notMem_of_mem_splitOn (hsplit ▸ List.mem_append_right _ List.mem_cons_self)

/-- A text has its lines in one way. -/
theorem Lined.unique {s : Text} : ∀ {ls ls' : List Text} {p p' : Text}, Lined s ls p →
    Lined s ls' p' → ls = ls' ∧ p = p' := by
  intro ls
  induction ls generalizing s with
  | nil =>
      intro ls' p p' h h'
      cases ls' with
      | nil => exact ⟨rfl, by simpa using h.text.symm.trans h'.text⟩
      | cons l ls' =>
          have hmem : '\n' ∈ s := by
            rw [h'.text]
            simp
          rw [h.text] at hmem
          exact absurd hmem h.last
  | cons l ls ih =>
      intro ls' p p' h h'
      cases ls' with
      | nil =>
          have hmem : '\n' ∈ s := by
            rw [h.text]
            simp
          rw [h'.text] at hmem
          exact absurd hmem h'.last
      | cons l' ls' =>
          obtain ⟨hl, hls⟩ := List.forall_mem_cons.mp h.finished
          obtain ⟨hl', hls'⟩ := List.forall_mem_cons.mp h'.finished
          have heq := h.text.symm.trans h'.text
          simp only [unlines_cons, List.append_assoc, List.cons_append] at heq
          have hsplit := congrArg splitLine heq
          rw [splitLine_line hl, splitLine_line hl'] at hsplit
          obtain ⟨rfl, hrest⟩ := Prod.mk.inj (Option.some.inj hsplit)
          obtain ⟨rfl, rfl⟩ := ih ⟨rfl, hls, h.last⟩ ⟨hrest, hls', h'.last⟩
          exact ⟨rfl, rfl⟩

/-- The lines behind the echo: the framer reads the echo while the lines remain
a beginning of what was typed. -/
def behindEcho (echo : Text) : Text → List Text → Option (List Text)
  | _, [] => none
  | seen, l :: ls =>
      if (seen ++ l).isPrefixOf echo && decide ((seen ++ l).length < echo.length) then
        behindEcho echo (seen ++ l) ls
      else some ls

/-! ## What a stream comes to -/

section due

variable {F : Type*} (U : PyUnicode) (P : PyFloat F)

/-- Two courses that are the same, but for how their text is cut. -/
def Course.Same (a b : Course F) : Prop := Event.Same a.events b.events ∧ a.raised = b.raised

/-- The state behind a list of lines. -/
def behindLines (s : LineState) (ls : List Text) : LineState :=
  ls.foldl (fun s l => (completeLine U P s l).1) s

/-- The events of an unfinished line. -/
def lastEvents (s : LineState) (p : Text) : List (Event F) :=
  if s.lineIsText = false ∧ prompt.isPrefixOf p = true then [.done]
  else if s.state = .stream ∧ p ≠ [] ∧ (s.lineIsText = true ∨ mustHold U p = false) then [.text p]
  else []

/-- The course of finished lines and an unfinished one. -/
def textEvents : LineState → List Text → Text → Course F
  | s, [], p => ⟨lastEvents U s p, none⟩
  | s, l :: ls, p =>
      match completeLine U P s l with
      | (_, .error e) => ⟨[], some e⟩
      | (s', .ok evs) => (textEvents s' ls p).behind evs

/-- The course of a framer with these lines in front of it. -/
def due (fr : ShellFramer) (ls : List Text) (p : Text) : Course F :=
  if fr.state = .echo then
    match behindEcho fr.echoExpect fr.echoSeen ls with
    | none => ⟨[], none⟩
    | some ls => textEvents U P { fr.toLineState with state := .stream } ls p
  else textEvents U P fr.toLineState ls p

/-- A finished line that begins with the prompt comes to no more than the
prompt would, up to where a line raises an exception. -/
def CalmLines : LineState → List Text → Text → Prop
  | _, [], _ => True
  | s, l :: ls, p =>
      (s.lineIsText = false → prompt <+: l →
          (textEvents U P s (l :: ls) p).Same ⟨[.done], none⟩) ∧
        match completeLine U P s l with
        | (_, .error _) => True
        | (s', .ok _) => CalmLines s' ls p

def Calm (fr : ShellFramer) (ls : List Text) (p : Text) : Prop :=
  if fr.state = .echo then
    ∀ ls' ∈ behindEcho fr.echoExpect fr.echoSeen ls,
      CalmLines U P { fr.toLineState with state := .stream } ls' p
  else CalmLines U P fr.toLineState ls p

/-- `Expects fr R c`: with the cleaned text `R` still to come, and cut in any
way, the framer is to put out `c` up to its end. -/
inductive Expects : ShellFramer → Text → Course F → Prop
  | intro {fr : ShellFramer} {R : Text} {ls : List Text} {p : Text} :
      (fr.lineIsText = true → fr.state = .stream) → Lined (fr.buf ++ R) ls p →
      (R = [] ∨ Calm U P fr ls p) → Expects fr R (due U P fr ls p)

/-- The run came to its end, and to `c` with it. -/
def Ends (c : Course F) (evs : List (Event F)) : Prop :=
  ∃ a b, evs = a ++ .done :: b ∧ .done ∉ a ∧ c.Same ⟨a ++ [.done], none⟩

variable {U P}

namespace Course.Same

theorem refl (c : Course F) : c.Same c := ⟨.refl _, rfl⟩

theorem trans {a b c : Course F} (h : a.Same b) (h' : b.Same c) : a.Same c :=
  ⟨h.1.trans h'.1, h.2.trans h'.2⟩

theorem behind {b c : Course F} (h : b.Same c) (evs : List (Event F)) :
    (b.behind evs).Same (c.behind evs) :=
  ⟨h.1.append_left evs, h.2⟩

end Course.Same

theorem Course.behind_nil (c : Course F) : c.behind [] = c := rfl

theorem Course.behind_behind (c : Course F) (a b : List (Event F)) :
    (c.behind b).behind a = c.behind (a ++ b) := by
  simp [Course.behind]

@[simp] theorem behindLines_nil (s : LineState) : behindLines U P s [] = s := rfl

@[simp] theorem behindLines_cons (s : LineState) (l : Text) (ls : List Text) :
    behindLines U P s (l :: ls) = behindLines U P (completeLine U P s l).1 ls := rfl

theorem textEvents_ok {s s' : LineState} {l : Text} {evs : List (Event F)}
    (h : completeLine U P s l = (s', .ok evs)) (ls : List Text) (p : Text) :
    textEvents U P s (l :: ls) p = (textEvents U P s' ls p).behind evs := by
  rw [textEvents, h]

theorem textEvents_error {s s' : LineState} {l : Text} {e : PyError}
    (h : completeLine U P s l = (s', .error e)) (ls : List Text) (p : Text) :
    textEvents U P s (l :: ls) p = ⟨[], some e⟩ := by
  rw [textEvents, h]

/-- The unfinished line follows the finished ones, if these raise nothing. -/
theorem textEvents_eq (s : LineState) (ls : List Text) (p : Text) :
    textEvents U P s ls p =
      match (lineEvents U P s ls).raised with
      | none => ⟨(lineEvents U P s ls).events ++ lastEvents U (behindLines U P s ls) p, none⟩
      | some e => ⟨(lineEvents U P s ls).events, some e⟩ := by
  induction ls generalizing s with
  | nil => rfl
  | cons l ls ih =>
      rcases hline : completeLine U P s l with ⟨s', e | evs⟩
      · rw [textEvents_error hline, lineEvents_error hline]
      · rw [textEvents_ok hline, lineEvents_ok hline, ih, behindLines_cons, hline]
        simp only [Course.behind]
        cases (lineEvents U P s' ls).raised <;> simp

/-- A line comes to one event at most, and no text of it is empty. -/
theorem completeLine_events {s s' : LineState} {l : Text} {evs : List (Event F)}
    (h : completeLine U P s l = (s', .ok evs)) :
    evs = [] ∨ (∃ v, evs = [.text (v ++ ['\n'])]) ∨
      (∃ v, evs = [.error v]) ∨ ∃ v, evs = [.stats v] := by
  have h₂ := congrArg Prod.snd h
  unfold completeLine at h₂
  dsimp only at h₂
  split_ifs at h₂
  all_goals try simp only [Except.ok.injEq] at h₂
  all_goals try (subst h₂; simp; done)
  split at h₂
  · cases h₂
  · obtain rfl := Except.ok.inj h₂
    simp
  · obtain rfl := Except.ok.inj h₂
    simp

theorem done_notMem_completeLine {s s' : LineState} {l : Text} {evs : List (Event F)}
    (h : completeLine U P s l = (s', .ok evs)) : .done ∉ evs := by
  rcases completeLine_events h with rfl | ⟨v, rfl⟩ | ⟨v, rfl⟩ | ⟨v, rfl⟩ <;> simp

theorem done_notMem_lineEvents (s : LineState) (ls : List Text) :
    (.done : Event F) ∉ (lineEvents U P s ls).events := by
  induction ls generalizing s with
  | nil => simp [lineEvents]
  | cons l ls ih =>
      rcases hline : completeLine U P s l with ⟨s', e | evs⟩
      · simp [lineEvents_error hline]
      · rw [lineEvents_ok hline, Course.behind, List.mem_append]
        rintro (h | h)
        · exact done_notMem_completeLine hline h
        · exact ih _ h

/-- Behind the end a line is dropped. -/
theorem completeLine_tail {s : LineState} (hs : s.state = .tail) (l : Text) :
    completeLine U P s l = ({ s with lineIsText := false }, .ok []) := by
  unfold completeLine
  dsimp only
  split_ifs <;> simp_all

/-- What is held stays held while it grows to a line that would be. -/
theorem mustHold_of_held {s t : Text} (hs : s ≠ []) (h : s <+: t) (ht : mustHold U t = true) :
    mustHold U s = true := by
  have htne : t ≠ [] := by
    rintro rfl
    exact hs (List.prefix_nil.mp h)
  unfold mustHold at ht
  rw [if_neg htne] at ht
  split at ht
  · next hlog => simp [mustHold, hs, logMatchLen_prefix U h hlog]
  · split at ht
    · next hmark =>
        refine mustHold_of_footerMark U hs (h.trans ?_)
        rcases Bool.or_eq_true_iff.mp hmark with hmark | hmark
        · exact List.isPrefixOf_iff_prefix.mp hmark
        · rw [beq_iff_eq.mp hmark]
    · split at ht
      · next hprompt =>
          exact mustHold_of_prompt U hs (h.trans (List.isPrefixOf_iff_prefix.mp hprompt))
      · obtain ⟨e, he, hte⟩ := List.any_eq_true.mp ht
        rcases Bool.or_eq_true_iff.mp hte with hte | hte
        · refine mustHold_of_error U hs (h.trans (List.isPrefixOf_iff_prefix.mp hte)) ?_
          exact List.any_eq_true.mpr ⟨e, he, by simp⟩
        · exact mustHold_of_error U hs h (List.any_eq_true.mpr ⟨e, he, hte⟩)

/-! ## One turn -/

theorem notMem_of_splitLine_none {buf : Text} (h : splitLine buf = none) : '\n' ∉ buf := by
  intro hmem
  rw [splitLine, if_pos hmem] at h
  cases h

/-- A line taken off the buffer is the first. -/
theorem Lined.split {buf R p line buf' : Text} {ls : List Text} (h : Lined (buf ++ R) ls p)
    (hsome : splitLine buf = some (line, buf')) :
    ∃ ls', ls = line :: ls' ∧ Lined (buf' ++ R) ls' p := by
  cases ls with
  | nil =>
      have hmem : '\n' ∈ buf := by
        by_contra hn
        rw [splitLine, if_neg hn] at hsome
        cases hsome
      have hp := h.text
      simp only [unlines_nil, List.nil_append] at hp
      exact absurd (hp ▸ List.mem_append_left R hmem) h.last
  | cons l ls =>
      obtain ⟨hl, hls⟩ := List.forall_mem_cons.mp h.finished
      have htext := h.text
      simp only [unlines_cons, List.append_assoc, List.cons_append] at htext
      rcases splitLine_of_append hl htext with ⟨hnone, -⟩ | ⟨buf'', hsome', hrest⟩
      · rw [hnone] at hsome
        cases hsome
      · rw [hsome'] at hsome
        obtain ⟨rfl, rfl⟩ := Prod.mk.inj (Option.some.inj hsome)
        exact ⟨ls, rfl, hrest, hls, h.last⟩

/-- A buffer without a line end is the front of the first line, or of the
unfinished one. -/
theorem Lined.grow {buf R p : Text} {ls : List Text} (h : Lined (buf ++ R) ls p)
    (hbuf : '\n' ∉ buf) :
    (∃ l ls', ls = (buf ++ l) :: ls' ∧ Lined R (l :: ls') p) ∨
      (ls = [] ∧ p = buf ++ R ∧ Lined R [] R) := by
  cases ls with
  | nil =>
      right
      have hp : p = buf ++ R := by simpa using h.text.symm
      have hlast := h.last
      rw [hp, List.mem_append, not_or] at hlast
      exact ⟨rfl, hp, rfl, by simp, hlast.2⟩
  | cons l ls =>
      left
      obtain ⟨hl, hls⟩ := List.forall_mem_cons.mp h.finished
      have htext := h.text
      simp only [unlines_cons, List.append_assoc, List.cons_append] at htext
      rcases splitLine_of_append hl htext with ⟨-, l', rfl, hR⟩ | ⟨buf', hsome, -⟩
      · rw [List.mem_append, not_or] at hl
        refine ⟨l', ls, rfl, by simpa using hR, ?_, h.last⟩
        exact List.forall_mem_cons.mpr ⟨hl.2, hls⟩
      · rw [splitLine, if_neg hbuf] at hsome
        cases hsome

theorem Lined.ne_nil {s l p : Text} {ls : List Text} (h : Lined s (l :: ls) p) : s ≠ [] := by
  rw [h.text]
  simp

theorem due_of_not_echo {fr : ShellFramer} (h : fr.state ≠ .echo) (ls : List Text) (p : Text) :
    due U P fr ls p = textEvents U P fr.toLineState ls p := by
  rw [due, if_neg h]

theorem calm_of_not_echo {fr : ShellFramer} (h : fr.state ≠ .echo) {ls : List Text} {p : Text} :
    Calm U P fr ls p ↔ CalmLines U P fr.toLineState ls p := by
  rw [Calm, if_neg h]

/-- Behind a first line that raises nothing, calm lines are calm. -/
theorem CalmLines.tail {s s' : LineState} {l p : Text} {ls : List Text} {evs : List (Event F)}
    (h : CalmLines U P s (l :: ls) p) (hline : completeLine U P s l = (s', .ok evs)) :
    CalmLines U P s' ls p := by
  have h := h.2
  rw [hline] at h
  exact h

/-- When nothing more is done with the buffer, nothing more is due of it. -/
theorem lastEvents_idle {s : LineState} {buf : Text}
    (hp : ¬ (s.lineIsText = false ∧ prompt.isPrefixOf buf = true))
    (hemit : ¬ (s.state = .stream ∧ buf ≠ [] ∧
      (s.lineIsText = true ∨ mustHold U buf = false))) :
    (lastEvents U s buf : List (Event F)) = [] := by
  rw [lastEvents, if_neg hp, if_neg hemit]

/-- An unfinished line whose head is put out is text. -/
theorem lastEvents_text {s : LineState} {buf : Text} (hstate : s.state = .stream) (hne : buf ≠ [])
    (hp : ¬ (s.lineIsText = false ∧ prompt.isPrefixOf buf = true))
    (hheld : s.lineIsText = true ∨ mustHold U buf = false) (R : Text) :
    (lastEvents U s (buf ++ R) : List (Event F)) = [.text (buf ++ R)] := by
  have hne' : buf ++ R ≠ [] := by simp [hne]
  rcases hheld with htext | hheld
  · rw [lastEvents, if_neg (by simp [htext]), if_pos ⟨hstate, hne', .inl htext⟩]
  · have hp' : ¬ (s.lineIsText = false ∧ prompt.isPrefixOf (buf ++ R) = true) := by
      rintro ⟨htext, h⟩
      rcases List.prefix_or_prefix_of_prefix (List.isPrefixOf_iff_prefix.mp h)
        (List.prefix_append buf R) with h | h
      · exact hp ⟨htext, List.isPrefixOf_iff_prefix.mpr h⟩
      · rw [mustHold_of_prompt U hne h] at hheld
        cases hheld
    have hheld' : mustHold U (buf ++ R) = false := by
      by_contra h
      rw [mustHold_of_held hne (List.prefix_append buf R) (by simpa using h)] at hheld
      cases hheld
    rw [lastEvents, if_neg hp', if_pos ⟨hstate, hne', .inr hheld'⟩]

/-- A framer in the middle of a text has nothing else to do. -/
def Sound (fr : ShellFramer) : Prop := fr.lineIsText = true → fr.state = .stream

variable (U P) in
/-- What a turn does to a framer with the finished lines `ls` and the unfinished
line `p` in front of it, `R` being still to come: it puts out part of what is
due; or it sees the prompt; or it raises what is due. -/
def Advances (r : ShellFramer × Except PyError (List (Event F) × Bool))
    (fr : ShellFramer) (R : Text) (ls : List Text) (p : Text) : Prop :=
  (∃ fr' evs go ls' p', r = (fr', .ok (evs, go)) ∧ Sound fr' ∧ Lined (fr'.buf ++ R) ls' p' ∧
      (due U P fr ls p).Same ((due U P fr' ls' p').behind evs) ∧ .done ∉ evs ∧
      (Calm U P fr ls p → Calm U P fr' ls' p') ∧
      (go = false → R = [] → due U P fr' ls' p' = ⟨[], none⟩)) ∨
    (∃ fr', r = (fr', .ok ([.done], true)) ∧ fr'.state = .tail ∧ fr.state ≠ .echo ∧
      '\n' ∉ fr.buf ∧ fr.lineIsText = false ∧ prompt <+: fr.buf) ∨
    ∃ fr' e, r = (fr', .error e) ∧ due U P fr ls p = ⟨[], some e⟩

/-- In the echo a turn takes a line or waits. -/
theorem turn_echo {fr : ShellFramer} {R p : Text} {ls : List Text} (hsound : Sound fr)
    (hlined : Lined (fr.buf ++ R) ls p) (hstate : fr.state = .echo) :
    Advances U P (turn U P fr) fr R ls p := by
  unfold turn
  rw [if_pos hstate]
  left
  cases hsplit : splitLine fr.buf with
  | none =>
      refine ⟨fr, [], false, ls, p, rfl, hsound, hlined, .refl _, by simp, id, fun _ hR => ?_⟩
      subst hR
      rcases hlined.grow (notMem_of_splitLine_none hsplit) with ⟨l, ls', -, hR⟩ | ⟨rfl, -, -⟩
      · exact absurd rfl hR.ne_nil
      · simp [due, hstate, behindEcho]
  | some r =>
      obtain ⟨line, buf'⟩ := r
      obtain ⟨ls', rfl, hlined'⟩ := hlined.split hsplit
      dsimp only
      cases hwrap : (fr.echoSeen ++ line).isPrefixOf fr.echoExpect &&
          decide ((fr.echoSeen ++ line).length < fr.echoExpect.length) with
      | true =>
          have hbehind : behindEcho fr.echoExpect fr.echoSeen (line :: ls') =
              behindEcho fr.echoExpect (fr.echoSeen ++ line) ls' := by
            rw [behindEcho, hwrap, if_pos rfl]
          have hdue : due U P fr (line :: ls') p =
              due U P { fr with buf := buf', echoSeen := fr.echoSeen ++ line } ls' p := by
            unfold due
            rw [if_pos hstate, if_pos hstate, hbehind]
          have hcalm : Calm U P fr (line :: ls') p →
              Calm U P { fr with buf := buf', echoSeen := fr.echoSeen ++ line } ls' p := by
            intro h
            unfold Calm at h ⊢
            rw [if_pos hstate, hbehind] at h
            rw [if_pos hstate]
            exact h
          simp only [if_true]
          exact ⟨_, _, _, _, _, rfl, hsound, hlined', by rw [hdue]; exact .refl _, by simp, hcalm,
            by simp⟩
      | false =>
          have hbehind : behindEcho fr.echoExpect fr.echoSeen (line :: ls') = some ls' := by
            rw [behindEcho, hwrap, if_neg (by decide)]
          have hdue : due U P fr (line :: ls') p =
              due U P { fr with
                buf := buf', echoSeen := fr.echoSeen ++ line, state := .stream } ls' p := by
            unfold due
            rw [if_pos hstate, if_neg (by simp), hbehind]
          have hcalm : Calm U P fr (line :: ls') p → Calm U P { fr with
              buf := buf', echoSeen := fr.echoSeen ++ line, state := .stream } ls' p := by
            intro h
            unfold Calm at h ⊢
            rw [if_pos hstate, hbehind] at h
            rw [if_neg (by simp)]
            exact h ls' rfl
          simp only [Bool.false_eq_true, if_false]
          exact ⟨_, _, _, _, _, rfl, fun _ => rfl, hlined', by rw [hdue]; exact .refl _, by simp,
            hcalm, by simp⟩

/-- The head of a text may go out before the rest of it. -/
theorem Course.same_cut (c : Course F) (u v : Text) :
    (c.behind [.text (u ++ v)]).Same ((c.behind [.text v]).behind [.text u]) :=
  ⟨Event.Same.cut u v c.events, rfl⟩

/-- When the head of a text goes out, the rest is text too. -/
theorem turn_head {fr : ShellFramer} {R p : Text} {ls : List Text}
    (hlined : Lined (fr.buf ++ R) ls p)
    (hbuf : '\n' ∉ fr.buf) (hstate : fr.state = .stream) (hne : fr.buf ≠ [])
    (hprompt : ¬ (fr.lineIsText = false ∧ prompt.isPrefixOf fr.buf = true))
    (hheld : fr.lineIsText = true ∨ mustHold U fr.buf = false) :
    Advances U P ({ fr with buf := [], lineIsText := true }, .ok ([.text fr.buf], false))
      fr R ls p := by
  have hecho : fr.state ≠ .echo := by
    rw [hstate]
    decide
  have hdue : ∀ ls p, due U P { fr with buf := [], lineIsText := true } ls p =
      textEvents U P { fr.toLineState with lineIsText := true } ls p :=
    fun _ _ => @due_of_not_echo F U P { fr with buf := [], lineIsText := true } hecho _ _
  have hcalm : ∀ ls p, Calm U P { fr with buf := [], lineIsText := true } ls p ↔
      CalmLines U P { fr.toLineState with lineIsText := true } ls p :=
    fun _ _ => @calm_of_not_echo F U P { fr with buf := [], lineIsText := true } hecho _ _
  unfold Advances
  rw [due_of_not_echo hecho, calm_of_not_echo hecho]
  left
  rcases hlined.grow hbuf with ⟨l, ls', rfl, hR⟩ | ⟨rfl, rfl, hR⟩
  · have hline : completeLine U P fr.toLineState (fr.buf ++ l) =
        ({ fr.toLineState with lineIsText := false },
          .ok [.text (fr.buf ++ l ++ ['\n'])]) := by
      cases htext : fr.lineIsText with
      | true => exact completeLine_inText U P hstate htext _
      | false =>
          have hheld : mustHold U fr.buf = false := by simpa [htext] using hheld
          exact completeLine_of_not_held U P hstate htext hne (List.prefix_append _ _) hheld
    have hrest := completeLine_inText U P (s := { fr.toLineState with lineIsText := true }) hstate
      rfl l
    refine ⟨_, _, _, _, _, rfl, fun _ => hstate, hR, ?_, by simp, fun h => ?_,
      fun _ h => absurd h hR.ne_nil⟩
    · rw [hdue, textEvents_ok hline, textEvents_ok hrest, List.append_assoc]
      exact Course.same_cut _ _ _
    · refine (hcalm _ _).mpr ⟨by simp, ?_⟩
      rw [hrest]
      exact h.tail hline
  · refine ⟨_, _, _, _, _, rfl, fun _ => hstate, hR, ?_, by simp,
      fun _ => (hcalm _ _).mpr trivial, fun _ hR => ?_⟩
    · rw [hdue, textEvents, textEvents, lastEvents_text hstate hne hprompt hheld]
      by_cases hRne : R = []
      · subst hRne
        rw [lastEvents_idle (by simp) (by simp), List.append_nil]
        exact .refl _
      · rw [lastEvents, if_neg (by simp), if_pos ⟨hstate, hRne, .inl rfl⟩]
        exact Course.same_cut ⟨[], none⟩ _ _
    · rw [hdue, hR, textEvents, lastEvents_idle (by simp) (by simp)]

/-- A line off the buffer comes to its events, or raises its exception. -/
theorem turn_line {fr : ShellFramer} {R line buf' p : Text} {ls : List Text}
    (hstate : fr.state ≠ .echo) (hlined : Lined (buf' ++ R) ls p) :
    Advances U P (match completeLine U P fr.toLineState line with
      | (s, .error e) => ({ fr with buf := buf', toLineState := s }, .error e)
      | (s, .ok evs) => ({ fr with buf := buf', toLineState := s }, .ok (evs, true))) fr R
      (line :: ls) p := by
  have hcomplete := completeLine_state U P hstate line
  have htext := completeLine_lineIsText U P fr.toLineState line
  unfold Advances
  rw [due_of_not_echo hstate, calm_of_not_echo hstate]
  rcases hline : completeLine U P fr.toLineState line with ⟨s, e | evs⟩
  · exact .inr (.inr ⟨_, e, rfl, textEvents_error hline ls p⟩)
  · rw [hline] at hcomplete htext
    have hsound : s.lineIsText = true → s.state = .stream := by
      rw [show s.lineIsText = false from htext]
      simp
    refine .inl ⟨_, evs, true, ls, p, rfl, hsound, hlined, ?_, done_notMem_completeLine hline,
      fun h => ?_, by simp⟩
    · rw [textEvents_ok hline, due_of_not_echo hcomplete]
      exact .refl _
    · rw [calm_of_not_echo hcomplete]
      exact h.tail hline

/-- **The step lemma.** -/
theorem turn_advances {fr : ShellFramer} {R p : Text} {ls : List Text} (hsound : Sound fr)
    (hlined : Lined (fr.buf ++ R) ls p) : Advances U P (turn U P fr) fr R ls p := by
  by_cases hstate : fr.state = .echo
  · exact turn_echo hsound hlined hstate
  · unfold turn
    rw [if_neg hstate]
    cases hsplit : splitLine fr.buf with
    | some r =>
        obtain ⟨line, buf'⟩ := r
        obtain ⟨ls', rfl, hlined'⟩ := hlined.split hsplit
        exact turn_line hstate hlined'
    | none =>
        have hbuf := notMem_of_splitLine_none hsplit
        by_cases hprompt : fr.lineIsText = false ∧ prompt.isPrefixOf fr.buf = true
        · simp only [hprompt, and_self, if_true]
          exact .inr (.inl ⟨_, rfl, rfl, hstate, hbuf, hprompt.1,
            List.isPrefixOf_iff_prefix.mp hprompt.2⟩)
        · simp only [hprompt, if_false]
          split
          · next hemit =>
              obtain ⟨hstream, hne, hheld⟩ := hemit
              exact turn_head hlined hbuf hstream hne hprompt hheld
          · next hemit =>
              refine .inl ⟨fr, [], false, ls, p, rfl, hsound, hlined, .refl _, by simp, id,
                fun _ hR => ?_⟩
              subst hR
              rcases hlined.grow hbuf with ⟨l, ls', -, hR⟩ | ⟨rfl, rfl, -⟩
              · exact absurd rfl hR.ne_nil
              · rw [due_of_not_echo hstate, textEvents, List.append_nil,
                  lastEvents_idle hprompt hemit]

/-- Where the prompt is seen, the framer is to put out no more than the end. -/
theorem same_done {fr : ShellFramer} {R p : Text} {ls : List Text} (hstate : fr.state ≠ .echo)
    (hlined : Lined (fr.buf ++ R) ls p) (hcalm : R = [] ∨ Calm U P fr ls p)
    (hbuf : '\n' ∉ fr.buf) (htext : fr.lineIsText = false) (hprompt : prompt <+: fr.buf) :
    (due U P fr ls p).Same ⟨[.done], none⟩ := by
  rw [due_of_not_echo hstate]
  rcases hlined.grow hbuf with ⟨l, ls', rfl, hR⟩ | ⟨rfl, rfl, -⟩
  · rcases hcalm with hnil | hcalm
    · exact absurd hnil hR.ne_nil
    · rw [calm_of_not_echo hstate] at hcalm
      exact hcalm.1 htext (hprompt.trans (List.prefix_append _ _))
  · have hp : prompt.isPrefixOf (fr.buf ++ R) = true :=
      List.isPrefixOf_iff_prefix.mpr (hprompt.trans (List.prefix_append _ _))
    rw [textEvents, lastEvents, if_pos ⟨htext, hp⟩]
    exact .refl _

variable (U P) in
/-- A turn puts out part of what is expected; or the end, when that is all there
is; or it raises what was expected. -/
def ExpectsNext (r : ShellFramer × Except PyError (List (Event F) × Bool)) (R : Text)
    (c : Course F) : Prop :=
  (∃ fr' evs go c', r = (fr', .ok (evs, go)) ∧ Expects U P fr' R c' ∧ c.Same (c'.behind evs) ∧
      .done ∉ evs ∧ (go = false → R = [] → c' = ⟨[], none⟩)) ∨
    (∃ fr', r = (fr', .ok ([.done], true)) ∧ fr'.state = .tail ∧ c.Same ⟨[.done], none⟩) ∨
    ∃ fr' e, r = (fr', .error e) ∧ c = ⟨[], some e⟩

/-- The step lemma, for what a framer is expected to put out. -/
theorem turn_expects {fr : ShellFramer} {R : Text} {c : Course F} (h : Expects U P fr R c) :
    ExpectsNext U P (turn U P fr) R c := by
  obtain ⟨hsound, hlined, hcalm⟩ := h
  next ls p =>
  rcases turn_advances hsound hlined with
    ⟨fr', evs, go, ls', p', hturn, hsound', hlined', hsame, hdone, hcalm', hend⟩ |
      ⟨fr', hturn, htail, hstate, hbuf, htext, hprompt⟩ | ⟨fr', e, hturn, hraises⟩
  · exact .inl ⟨fr', evs, go, _, hturn, .intro hsound' hlined' (hcalm.imp_right hcalm'), hsame,
      hdone, hend⟩
  · exact .inr (.inl ⟨fr', hturn, htail, same_done hstate hlined hcalm hbuf htext hprompt⟩)
  · exact .inr (.inr ⟨fr', e, hturn, hraises⟩)

/-! ## The loop and the run -/

/-- Behind the end no turn raises. -/
theorem turn_tail {fr : ShellFramer} (h : fr.state = .tail) :
    ∃ fr' evs go, turn U P fr = (fr', .ok (evs, go)) ∧ fr'.state = .tail := by
  unfold turn
  rw [if_neg (by rw [h]; decide)]
  cases splitLine fr.buf with
  | some r =>
      dsimp only
      rw [completeLine_tail h]
      exact ⟨_, _, _, rfl, h⟩
  | none =>
      dsimp only
      split
      · exact ⟨_, _, _, rfl, rfl⟩
      · rw [if_neg (by simp [h])]
        exact ⟨_, _, _, rfl, h⟩

theorem turns_tail : ∀ (n : Nat) {fr : ShellFramer}, fr.state = .tail →
    ∃ fr' evs, turns U P n fr = (fr', .ok evs) := by
  intro n
  induction n with
  | zero => exact fun _ => ⟨_, _, rfl⟩
  | succ n ih =>
      intro fr h
      obtain ⟨fr', evs, go, hturn, h'⟩ := turn_tail (U := U) (P := P) h
      cases go with
      | false => exact ⟨_, _, turns_wait U P hturn⟩
      | true =>
          obtain ⟨fr'', evs', hturns⟩ := ih h'
          exact ⟨_, _, turns_again U P hturn hturns⟩

/-- What goes out first may be put in front of an end. -/
theorem Ends.append {c c' : Course F} {evs a : List (Event F)} (h : Ends c' evs) (ha : .done ∉ a)
    (hsame : c.Same (c'.behind a)) : Ends c (a ++ evs) := by
  obtain ⟨b, d, rfl, hb, hb'⟩ := h
  refine ⟨a ++ b, d, by simp, by simp [ha, hb], ?_⟩
  have h := hsame.trans (hb'.behind a)
  simpa [Course.behind] using h

/-- What follows an end is behind it. -/
theorem Ends.more {c : Course F} {evs : List (Event F)} (h : Ends c evs) (more : List (Event F)) :
    Ends c (evs ++ more) := by
  obtain ⟨a, b, rfl, ha, hsame⟩ := h
  exact ⟨a, b ++ more, by simp, ha, hsame⟩

variable (U P) in
/-- The loop puts out what is expected until it waits, or comes to the end; or
it raises what is expected, and its events are lost. -/
def ExpectsAfter (r : ShellFramer × Except PyError (List (Event F))) (R : Text)
    (c : Course F) : Prop :=
  (∃ fr' evs c', r = (fr', .ok evs) ∧ Expects U P fr' R c' ∧ c.Same (c'.behind evs) ∧
      .done ∉ evs ∧ (R = [] → c' = ⟨[], none⟩)) ∨
    (∃ fr' evs, r = (fr', .ok evs) ∧ Ends c evs) ∨
    ∃ fr' e lost, r = (fr', .error e) ∧ .done ∉ lost ∧ c.Same ⟨lost, some e⟩

theorem turns_error {n : Nat} {fr fr' : ShellFramer} {e : PyError}
    (h : turn U P fr = (fr', .error e)) : turns U P (n + 1) fr = (fr', .error e) := by
  rw [turns, h]

theorem turns_again_error {n : Nat} {fr fr' fr'' : ShellFramer} {evs : List (Event F)} {e : PyError}
    (h : turn U P fr = (fr', .ok (evs, true))) (h' : turns U P n fr' = (fr'', .error e)) :
    turns U P (n + 1) fr = (fr'', .error e) := by
  rw [turns, h]
  dsimp only
  rw [h']

theorem turns_expects {R : Text} : ∀ (n : Nat) {fr : ShellFramer} {c : Course F},
    fr.buf.length < n → Expects U P fr R c → ExpectsAfter U P (turns U P n fr) R c := by
  intro n
  induction n with
  | zero => intro fr c hn; omega
  | succ n ih =>
      intro fr c hn h
      rcases turn_expects h with
        ⟨fr₁, evs₁, go, c₁, hturn, hc₁, hsame, hdone, hend⟩ | ⟨fr₁, hturn, htail, hsame⟩ |
          ⟨fr₁, e, hturn, rfl⟩
      · cases go with
        | false => exact .inl ⟨fr₁, evs₁, c₁, turns_wait U P hturn, hc₁, hsame, hdone, hend rfl⟩
        | true =>
            have hlen := turn_length U P hturn
            rcases ih (by omega) hc₁ with
              ⟨fr₂, evs₂, c₂, hturns, hc₂, hsame₂, hdone₂, hend₂⟩ | ⟨fr₂, evs₂, hturns, hends⟩ |
                ⟨fr₂, e, lost, hturns, hlost, hsame₂⟩
            · refine .inl ⟨fr₂, _, c₂, turns_again U P hturn hturns, hc₂, ?_,
                by simp [hdone, hdone₂], hend₂⟩
              rw [← Course.behind_behind]
              exact hsame.trans (hsame₂.behind _)
            · exact .inr (.inl ⟨fr₂, _, turns_again U P hturn hturns, hends.append hdone hsame⟩)
            · exact .inr (.inr ⟨fr₂, e, evs₁ ++ lost, turns_again_error hturn hturns,
                by simp [hdone, hlost], hsame.trans (hsame₂.behind _)⟩)
      · obtain ⟨fr₂, evs₂, hturns⟩ := turns_tail (U := U) (P := P) n htail
        have hends : Ends c ([.done] : List (Event F)) := ⟨[], [], rfl, by simp, hsame⟩
        exact .inr (.inl ⟨fr₂, _, turns_again U P hturn hturns, hends.more _⟩)
      · exact .inr (.inr ⟨fr₁, e, [], turns_error hturn, by simp, .refl _⟩)

/-- The text still to come may join the buffer. -/
theorem Expects.more {fr : ShellFramer} {x R raw : Text} {c : Course F}
    (h : Expects U P fr (x ++ R) c) :
    Expects U P { fr with raw := raw, buf := fr.buf ++ x } R c := by
  obtain ⟨hsound, hlined, hcalm⟩ := h
  rw [← List.append_assoc] at hlined
  exact .intro hsound hlined (hcalm.imp_left fun h => (List.append_eq_nil_iff.mp h).2)

/-- **One piece**, the text it brings being in the buffer. -/
theorem feed_expects {fr : ShellFramer} {h : Held} (hraw : fr.raw = h.text) (data : Text) {R : Text}
    {c : Course F}
    (hc : Expects U P { fr with
      raw := (h.scan data).2.text, buf := fr.buf ++ noCr (h.scan data).1 } R c) :
    ExpectsAfter U P (fr.feed U P data) R c := by
  rw [feed_scan U P hraw]
  exact turns_expects _ (Nat.lt_succ_self _) hc

theorem feeds_error {fr fr' : ShellFramer} {data : Text} {e : PyError}
    (h : fr.feed U P data = (fr', .error e)) (chunks : List Text) :
    fr.feeds U P (data :: chunks) = (fr', ⟨[], some e⟩) := by
  rw [ShellFramer.feeds, h]

/-- The run put out what was expected, or came to its end, or it raised what was
expected and lost the events of the last piece. -/
def Comes (c run : Course F) : Prop :=
  (c.Same run ∧ run.raised = none ∧ .done ∉ run.events) ∨ Ends c run.events ∨
    ∃ e lost, run.raised = some e ∧ .done ∉ run.events ++ lost ∧
      c.Same ⟨run.events ++ lost, some e⟩

theorem Comes.behind {c c' run : Course F} {evs : List (Event F)} (h : Comes c' run)
    (hdone : .done ∉ evs) (hsame : c.Same (c'.behind evs)) : Comes c (run.behind evs) := by
  rcases h with ⟨hrun, hok, hdone'⟩ | hends | ⟨e, lost, he, hlost, hrun⟩
  · exact .inl ⟨hsame.trans (hrun.behind evs), hok, by simp [Course.behind, hdone, hdone']⟩
  · exact .inr (.inl (hends.append hdone hsame))
  · refine .inr (.inr ⟨e, lost, he, ?_, ?_⟩)
    · rw [Course.behind, List.append_assoc, List.mem_append, not_or]
      exact ⟨hdone, hlost⟩
    · have h := hsame.trans (hrun.behind evs)
      simpa [Course.behind] using h

/-- **The run lemma.**  Wherever the stream is cut, a run comes to what is
expected. -/
theorem feeds_expects : ∀ (chunks : List Text) {fr : ShellFramer} {h : Held}
    {c : Course F}, chunks ≠ [] → fr.raw = h.text →
    Expects U P fr (noCr (h.scan chunks.flatten).1) c → Comes c (fr.feeds U P chunks).2 := by
  intro chunks
  induction chunks with
  | nil => intro fr h c hne; exact absurd rfl hne
  | cons data chunks ih =>
      intro fr h c _ hraw hc
      rw [List.flatten_cons, Held.scan_append, noCr_append] at hc
      rcases feed_expects hraw data hc.more with
        ⟨fr', evs, c', hfeed, hc', hsame, hdone, hend⟩ | ⟨fr', evs, hfeed, hends⟩ |
          ⟨fr', e, lost, hfeed, hlost, hsame⟩
      · rw [feeds_ok U P hfeed]
        by_cases hlast : chunks = []
        · subst hlast
          obtain rfl := hend rfl
          exact .inl ⟨hsame, rfl, by simpa [ShellFramer.feeds, Course.behind] using hdone⟩
        · have hraw' := feed_raw U P hraw data
          rw [hfeed] at hraw'
          exact (ih hlast hraw' hc').behind hdone hsame
      · rw [feeds_ok U P hfeed]
        exact .inr (.inl (hends.more _))
      · rw [feeds_error hfeed]
        exact .inr (.inr ⟨e, lost, rfl, by simpa using hlost, hsame⟩)

/-! ## Whole streams -/

/-- What a stream comes to by its lines. -/
def streamEvents (U : PyUnicode) (P : PyFloat F) (expectFooter : Bool) (echo s : Text) :
    Course F :=
  due U P (ShellFramer.new expectFooter echo) (lines (cleaned s)).1 (lines (cleaned s)).2

/-- Where no line that begins with the prompt comes to more than the prompt,
every run comes to the stream's events. -/
theorem feeds_calm {expectFooter : Bool} {echo s : Text} {chunks : List Text}
    (hcalm : Calm U P (ShellFramer.new expectFooter echo) (lines (cleaned s)).1
      (lines (cleaned s)).2) (hchunks : chunks.flatten = s) :
    Comes (streamEvents U P expectFooter echo s)
      ((ShellFramer.new expectFooter echo).feeds U P chunks).2 := by
  subst hchunks
  have hlined := lined_lines (cleaned chunks.flatten)
  by_cases hne : chunks = []
  · subst hne
    exact .inl ⟨.refl _, rfl, by simp [ShellFramer.feeds]⟩
  · have hc : Expects U P (ShellFramer.new expectFooter echo)
        (noCr (Held.clear.scan chunks.flatten).1)
        (streamEvents U P expectFooter echo chunks.flatten) := by
      rw [← cleaned_eq]
      exact .intro (by simp [ShellFramer.new]) hlined (.inr hcalm)
    exact feeds_expects chunks hne (h := .clear) rfl hc

/-- A stream that comes whole comes to its events, whatever its lines. -/
theorem feeds_whole (expectFooter : Bool) (echo s : Text) :
    Comes (streamEvents U P expectFooter echo s)
      ((ShellFramer.new expectFooter echo).feeds U P [s]).2 := by
  have hlined := lined_lines (cleaned s)
  have hc : Expects U P { ShellFramer.new expectFooter echo with
      raw := (Held.clear.scan s).2.text
      buf := (ShellFramer.new expectFooter echo).buf ++ noCr (Held.clear.scan s).1 } []
      (streamEvents U P expectFooter echo s) := by
    rw [← cleaned_eq]
    refine .intro (by simp [ShellFramer.new]) ?_ (.inl rfl)
    rw [List.append_nil]
    exact hlined
  rcases feed_expects (h := .clear) rfl s hc with
    ⟨fr', evs, c', hfeed, -, hsame, hdone, hend⟩ | ⟨fr', evs, hfeed, hends⟩ |
      ⟨fr', e, lost, hfeed, hlost, hsame⟩
  · rw [feeds_ok U P hfeed]
    obtain rfl := hend rfl
    exact .inl ⟨hsame, rfl, by simpa [ShellFramer.feeds, Course.behind] using hdone⟩
  · rw [feeds_ok U P hfeed]
    exact .inr (.inl (hends.more _))
  · rw [feeds_error hfeed]
    exact .inr (.inr ⟨e, lost, rfl, by simpa using hlost, hsame⟩)

end due

end TinyLlm
