/-
# `TinyLlm.Chat.Framer` — `ShellFramer`, the shell's output as events

`ShellFramer` reads the shell's output in pieces and puts out text as early as
it can: the head of a line goes out as soon as the line can no longer turn out
to be a log line, an error, the footer mark or the prompt (`mustHold`), and the
rest of it follows.

What the pieces add up to is said by whole lines: `lineEvents` gives each line
to `_complete_line` at once.  `Owes` relates a framer between two pieces, and
the cleaned text still to come, to the events not yet put out; `turn_owes` is
the step lemma for one turn of `feed`'s loop, `feed_owes` for one piece, and
`feeds_owes` the run: however the text is cut, its events are those of its
lines and the prompt, up to where a text is cut into several (`Same`).
-/
import TinyLlm.Chat.Stats
import Mathlib.Data.List.TakeWhile

namespace TinyLlm

open Regex (Rx)

/-! ## The control lines -/

/-- `PROMPT` -/
def prompt : Text := "tinyllm> ".toList

/-- `FOOTER` -/
def footerMark : Text := "--".toList

/-- `ERROR_PREFIXES` -/
def errorPrefixes : List Text :=
  ["usage:".toList, "no model loaded".toList, "no PSRAM".toList, "encode:".toList,
    "forward at".toList, "model open:".toList, "load failed:".toList, "runtime:".toList,
    "KV cache".toList, "activations need".toList, "shorten the context".toList,
    "no usable clock".toList]

/-- `_LOG_TPL` -/
def logTpl : Text := "[NN:NN:NN.NNN,NNN] <".toList

section control

variable (U : PyUnicode)

/-- `_log_match_len`: the characters of `s` consistent with the template, `-1`
on a mismatch. -/
def logMatchLen (s : Text) : Int :=
  if (s.zip logTpl).all fun cw => if cw.2 = 'N' then U.isdigit cw.1 else cw.1 == cw.2 then
    (min s.length logTpl.length : Nat)
  else -1

/-- `_is_log_line` -/
def isLogLine (line : Text) : Bool := logMatchLen U line == logTpl.length

/-- Does the line start with one of the shell's error texts? -/
def isError (line : Text) : Bool := errorPrefixes.any fun e => e.isPrefixOf line

/-- `_must_hold`: could a partial line still turn into a control line? -/
def mustHold (part : Text) : Bool :=
  if part = [] then false
  else if 0 ≤ logMatchLen U part then true
  else if part.isPrefixOf footerMark || part == footerMark then true
  else if part.isPrefixOf prompt then true
  else errorPrefixes.any fun e => part.isPrefixOf e || e.isPrefixOf part

end control

/-! ## The framer -/

/-- The events of `ShellFramer`. -/
inductive Event (F : Type*) where
  | text (v : Text)
  | error (v : Text)
  | stats (v : GenStats F)
  | done
deriving DecidableEq

/-- `self.state` -/
inductive Stage where
  | echo
  | stream
  | footer
  | tail
deriving DecidableEq

/-- What a run puts out, and the exception that breaks it off. -/
structure Course (F : Type*) where
  events : List (Event F)
  raised : Option PyError
deriving DecidableEq

/-- The course with some events in front of it. -/
def Course.behind {F : Type*} (evs : List (Event F)) (c : Course F) : Course F :=
  ⟨evs ++ c.events, c.raised⟩

/-- The part of the framer that `_complete_line` works on. -/
structure LineState where
  expectFooter : Bool
  state : Stage
  /-- The head of the current line was already put out. -/
  lineIsText : Bool
  footer : List Text

/-- `class ShellFramer` -/
structure ShellFramer extends LineState where
  echoExpect : Text
  echoSeen : Text
  buf : Text
  /-- Unstripped text withheld until a partial escape sequence resolves. -/
  raw : Text

/-- `ShellFramer(expect_footer, echo)` -/
def ShellFramer.new (expectFooter : Bool) (echo : Text) : ShellFramer where
  expectFooter := expectFooter
  state := .echo
  lineIsText := false
  footer := []
  echoExpect := echo
  echoSeen := []
  buf := []
  raw := []

section framer

variable {F : Type*} (U : PyUnicode) (P : PyFloat F)

/-- `_complete_line`.  At an exception the line is already noted. -/
def completeLine (s : LineState) (bare : Text) : LineState × Except PyError (List (Event F)) :=
  let t : LineState := { s with lineIsText := false }
  if s.lineIsText then
    -- the head of the line is out: it cannot be a control line
    (t, .ok (if t.state = .stream then [.text (bare ++ ['\n'])] else []))
  else if isLogLine U bare then (t, .ok [])
  else if t.state = .footer then
    let t := { t with footer := t.footer ++ [bare] }
    if t.footer.length = 2 then
      ({ t with state := .tail },
        match parseStatsSerial U P (List.intercalate ['\n'] t.footer) with
        | .error e => .error e
        | .ok (some st) => .ok [.stats st]
        | .ok none => .ok [])
    else (t, .ok [])
  else if t.state = .tail then (t, .ok [])
  else if bare = footerMark ∧ t.expectFooter = true then ({ t with state := .footer }, .ok [])
  else if isError bare then (t, .ok [.error bare])
  else (t, .ok [.text (bare ++ ['\n'])])

/-- `buf.find("\n")`, with the line and what is behind its end. -/
def splitLine (buf : Text) : Option (Text × Text) :=
  if '\n' ∈ buf then
    some (buf.takeWhile (· != '\n'), (buf.dropWhile (· != '\n')).drop 1)
  else none

/-- One turn of the loop of `feed`: the events, and whether the loop goes on. -/
def turn (fr : ShellFramer) : ShellFramer × Except PyError (List (Event F) × Bool) :=
  if fr.state = .echo then
    match splitLine fr.buf with
    | none => (fr, .ok ([], false))
    | some (line, rest) =>
        let seen := fr.echoSeen ++ line
        if seen.isPrefixOf fr.echoExpect && decide (seen.length < fr.echoExpect.length) then
          -- wrapped mid-echo, more to come
          ({ fr with buf := rest, echoSeen := seen }, .ok ([], true))
        else ({ fr with buf := rest, echoSeen := seen, state := .stream }, .ok ([], true))
  else
    match splitLine fr.buf with
    | some (line, rest) =>
        match completeLine U P fr.toLineState line with
        | (s, .error e) => ({ fr with buf := rest, toLineState := s }, .error e)
        | (s, .ok evs) => ({ fr with buf := rest, toLineState := s }, .ok (evs, true))
    | none =>
        if fr.lineIsText = false ∧ prompt.isPrefixOf fr.buf = true then
          ({ fr with buf := fr.buf.drop prompt.length, state := .tail }, .ok ([.done], true))
        else if fr.state = .stream ∧ fr.buf ≠ [] ∧
            (fr.lineIsText = true ∨ mustHold U fr.buf = false) then
          ({ fr with buf := [], lineIsText := true }, .ok ([.text fr.buf], false))
        else (fr, .ok ([], false))

/-- The loop of `feed`, for at most so many turns.  An exception leaves it, and
`out` with it. -/
def turns : Nat → ShellFramer → ShellFramer × Except PyError (List (Event F))
  | 0, fr => (fr, .ok [])
  | n + 1, fr =>
      match turn U P fr with
      | (fr', .error e) => (fr', .error e)
      | (fr', .ok (evs, false)) => (fr', .ok evs)
      | (fr', .ok (evs, true)) =>
          match turns n fr' with
          | (fr'', .error e) => (fr'', .error e)
          | (fr'', .ok evs') => (fr'', .ok (evs ++ evs'))

/-- `feed`.  A turn that goes on takes a line or the prompt off the buffer, so
the buffer's length bounds the turns. -/
def ShellFramer.feed (fr : ShellFramer) (data : Text) :
    ShellFramer × Except PyError (List (Event F)) :=
  let cut := ansiCut (fr.raw ++ data)
  let buf := fr.buf ++ (ansiRe.erase cut.1).filter (· != '\r')
  turns U P (buf.length + 1) { fr with raw := cut.2, buf := buf }

/-- A run of pieces and all their events, up to the first exception. -/
def ShellFramer.feeds (fr : ShellFramer) : List Text → ShellFramer × Course F
  | [] => (fr, ⟨[], none⟩)
  | data :: chunks =>
      match fr.feed U P data with
      | (fr', .error e) => (fr', ⟨[], some e⟩)
      | (fr', .ok evs) => ((fr'.feeds chunks).1, (fr'.feeds chunks).2.behind evs)

end framer

/-! ## What events add up to -/

namespace Event

variable {F : Type*}

/-- The text that the events put out. -/
def texts : List (Event F) → Text
  | [] => []
  | .text v :: es => v ++ texts es
  | _ :: es => texts es

/-- The other events, in order. -/
def controls : List (Event F) → List (Event F)
  | [] => []
  | .text _ :: es => controls es
  | e :: es => e :: controls es

@[simp] theorem texts_append (a b : List (Event F)) : texts (a ++ b) = texts a ++ texts b := by
  induction a with
  | nil => rfl
  | cons e es ih => cases e <;> simp [texts, ih]

@[simp] theorem controls_append (a b : List (Event F)) :
    controls (a ++ b) = controls a ++ controls b := by
  induction a with
  | nil => rfl
  | cons e es ih => cases e <;> simp [controls, ih]

/-- The same events, but for how the text is cut. -/
def Same (a b : List (Event F)) : Prop := texts a = texts b ∧ controls a = controls b

namespace Same

theorem refl (a : List (Event F)) : Same a a := ⟨rfl, rfl⟩

theorem trans {a b c : List (Event F)} (h : Same a b) (h' : Same b c) : Same a c :=
  ⟨h.1.trans h'.1, h.2.trans h'.2⟩

theorem append_left {b c : List (Event F)} (h : Same b c) (a : List (Event F)) :
    Same (a ++ b) (a ++ c) := by
  simp [Same, h.1, h.2]

/-- A text may be cut. -/
theorem cut (u v : Text) (es : List (Event F)) :
    Same (.text (u ++ v) :: es) (.text u :: .text v :: es) := by
  simp [Same, texts, controls]

end Same

end Event

/-! ## Partial lines -/

section partials

variable (U : PyUnicode)

theorem all_zip_mono {p : Char × Char → Bool} : ∀ {s t u : Text}, s <+: t →
    (t.zip u).all p = true → (s.zip u).all p = true
  | [], _, _, _, _ => rfl
  | a :: s, [], _, h, _ => absurd (List.prefix_nil.mp h) (by simp)
  | a :: s, b :: t, [], _, _ => rfl
  | a :: s, b :: t, c :: u, h, hall => by
      obtain ⟨rfl, hst⟩ := List.cons_prefix_cons.mp h
      simp only [List.zip_cons_cons, List.all_cons, Bool.and_eq_true] at hall ⊢
      exact ⟨hall.1, all_zip_mono hst hall.2⟩

theorem logMatchLen_prefix {s t : Text} (h : s <+: t) (ht : 0 ≤ logMatchLen U t) :
    0 ≤ logMatchLen U s := by
  unfold logMatchLen at ht ⊢
  split at ht
  · next hall => simp [all_zip_mono h hall]
  · omega

/-- A beginning of a log line is held. -/
theorem mustHold_of_log {s line : Text} (hs : s ≠ []) (h : s <+: line)
    (hl : isLogLine U line = true) : mustHold U s = true := by
  have hlen : 0 ≤ logMatchLen U line := by
    rw [isLogLine, beq_iff_eq] at hl
    omega
  simp [mustHold, hs, logMatchLen_prefix U h hlen]

/-- A beginning of the footer mark is held. -/
theorem mustHold_of_footerMark {s : Text} (hs : s ≠ []) (h : s <+: footerMark) :
    mustHold U s = true := by
  simp [mustHold, hs, List.isPrefixOf_iff_prefix.mpr h]

/-- A beginning of the prompt is held. -/
theorem mustHold_of_prompt {s : Text} (hs : s ≠ []) (h : s <+: prompt) :
    mustHold U s = true := by
  simp [mustHold, hs, List.isPrefixOf_iff_prefix.mpr h]

/-- A beginning of an error is held. -/
theorem mustHold_of_error {s line : Text} (hs : s ≠ []) (h : s <+: line)
    (hl : isError line = true) : mustHold U s = true := by
  obtain ⟨e, he, hle⟩ := List.any_eq_true.mp hl
  have hany : (errorPrefixes.any fun e => s.isPrefixOf e || e.isPrefixOf s) = true := by
    refine List.any_eq_true.mpr ⟨e, he, ?_⟩
    rw [Bool.or_eq_true, List.isPrefixOf_iff_prefix, List.isPrefixOf_iff_prefix]
    exact List.prefix_or_prefix_of_prefix h (List.isPrefixOf_iff_prefix.mp hle)
  simp only [mustHold, hs, if_false]
  split
  · rfl
  · split
    · rfl
    · split
      · rfl
      · exact hany

end partials

/-! ## Whole lines -/

section lines

variable {F : Type*} (U : PyUnicode) (P : PyFloat F)

/-- The text of whole lines. -/
def unlines (ls : List Text) : Text := ls.flatMap (· ++ ['\n'])

@[simp] theorem unlines_nil : unlines [] = [] := rfl

@[simp] theorem unlines_cons (l : Text) (ls : List Text) :
    unlines (l :: ls) = l ++ '\n' :: unlines ls := by
  simp [unlines]

/-- The course of a list of lines. -/
def lineEvents : LineState → List Text → Course F
  | _, [] => ⟨[], none⟩
  | s, l :: ls =>
      match completeLine U P s l with
      | (_, .error e) => ⟨[], some e⟩
      | (s', .ok evs) => (lineEvents s' ls).behind evs

variable {U P} in
theorem lineEvents_ok {s s' : LineState} {l : Text} {evs : List (Event F)}
    (h : completeLine U P s l = (s', .ok evs)) (ls : List Text) :
    lineEvents U P s (l :: ls) = (lineEvents U P s' ls).behind evs := by
  rw [lineEvents, h]

variable {U P} in
theorem lineEvents_error {s s' : LineState} {l : Text} {e : PyError}
    (h : completeLine U P s l = (s', .error e)) (ls : List Text) :
    lineEvents U P s (l :: ls) = ⟨[], some e⟩ := by
  rw [lineEvents, h]

variable {U P} in
/-- Where lines raise nothing, neither does the first. -/
theorem lineEvents_cons {s : LineState} {l : Text} {ls : List Text}
    (h : (lineEvents U P s (l :: ls)).raised = none) :
    ∃ s' evs, completeLine U P s l = (s', .ok evs) ∧
      lineEvents U P s (l :: ls) = (lineEvents U P s' ls).behind evs ∧
      (lineEvents U P s' ls).raised = none := by
  rcases hline : completeLine U P s l with ⟨s', e | evs⟩
  · rw [lineEvents_error hline] at h
    cases h
  · rw [lineEvents_ok hline] at h
    exact ⟨s', evs, rfl, lineEvents_ok hline ls, h⟩

@[simp] theorem completeLine_lineIsText (s : LineState) (l : Text) :
    (completeLine U P s l).1.lineIsText = false := by
  unfold completeLine
  dsimp only
  split_ifs <;> rfl

/-- A line is complete only once the echo is over, and stays so. -/
theorem completeLine_state {s : LineState} (hs : s.state ≠ .echo) (l : Text) :
    (completeLine U P s l).1.state ≠ .echo := by
  unfold completeLine
  dsimp only
  split_ifs <;> simp [hs]

/-- The rest of a line whose head is out is text. -/
theorem completeLine_inText {s : LineState} (hs : s.state = .stream) (ht : s.lineIsText = true)
    (l : Text) :
    completeLine U P s l = ({ s with lineIsText := false }, .ok [.text (l ++ ['\n'])]) := by
  simp [completeLine, hs, ht]

/-- In the stream, a line with a beginning that is not held is text. -/
theorem completeLine_of_not_held {s : LineState} (hs : s.state = .stream)
    (ht : s.lineIsText = false) {part l : Text} (hne : part ≠ []) (hpre : part <+: l)
    (hheld : mustHold U part = false) :
    completeLine U P s l = ({ s with lineIsText := false }, .ok [.text (l ++ ['\n'])]) := by
  have hlog : isLogLine U l ≠ true := by
    intro h
    rw [mustHold_of_log U hne hpre h] at hheld
    cases hheld
  have hmark : l ≠ footerMark := by
    rintro rfl
    rw [mustHold_of_footerMark U hne hpre] at hheld
    cases hheld
  have herr : isError l ≠ true := by
    intro h
    rw [mustHold_of_error U hne hpre h] at hheld
    cases hheld
  simp [completeLine, hs, ht, hlog, hmark, herr]

/-! ## What a framer still owes -/

/-- A line that the prompt cannot be mistaken for. -/
structure PlainLine (l : Text) : Prop where
  noNewline : '\n' ∉ l
  noPrompt : ¬ prompt <+: l

/-- `Owes fr R es`: with the cleaned text `R` still to come, the events `es`
are still to be put out, and nothing is raised. -/
inductive Owes : ShellFramer → Text → List (Event F) → Prop
  /-- The echo of the command is still to be read. -/
  | echo {fr : ShellFramer} {R line : Text} {todo : List Text} :
      fr.state = .echo → fr.lineIsText = false → '\n' ∉ line →
      ¬ (fr.echoSeen ++ line <+: fr.echoExpect ∧
        (fr.echoSeen ++ line).length < fr.echoExpect.length) →
      fr.buf ++ R = line ++ '\n' :: (unlines todo ++ prompt) → (∀ l ∈ todo, PlainLine l) →
      (lineEvents U P { fr.toLineState with state := .stream } todo).raised = none →
      Owes fr R ((lineEvents U P { fr.toLineState with state := .stream } todo).events ++ [.done])
  /-- The buffer starts at the front of a line. -/
  | front {fr : ShellFramer} {R : Text} {todo : List Text} :
      fr.state ≠ .echo → fr.lineIsText = false → fr.buf ++ R = unlines todo ++ prompt →
      (∀ l ∈ todo, PlainLine l) → (lineEvents U P fr.toLineState todo).raised = none →
      Owes fr R ((lineEvents U P fr.toLineState todo).events ++ [.done])
  /-- The buffer starts inside a line whose head is out. -/
  | inside {fr : ShellFramer} {R l : Text} {todo : List Text} :
      fr.state = .stream → fr.lineIsText = true → '\n' ∉ l →
      fr.buf ++ R = l ++ '\n' :: (unlines todo ++ prompt) → (∀ l ∈ todo, PlainLine l) →
      (lineEvents U P fr.toLineState (l :: todo)).raised = none →
      Owes fr R ((lineEvents U P fr.toLineState (l :: todo)).events ++ [.done])
  /-- The prompt was read. -/
  | paid {fr : ShellFramer} {R : Text} :
      fr.state = .tail → fr.lineIsText = false → fr.buf = [] → R = [] → Owes fr R []

theorem splitLine_line {l : Text} (hl : '\n' ∉ l) (rest : Text) :
    splitLine (l ++ '\n' :: rest) = some (l, rest) := by
  have hne : ∀ c ∈ l, (c != '\n') = true := by
    intro c hc
    rw [bne_iff_ne]
    rintro rfl
    exact hl hc
  unfold splitLine
  rw [if_pos (by simp), List.takeWhile_append_of_pos hne, List.dropWhile_append_of_pos hne]
  simp

/-- The buffer ends inside the first line, or holds it whole. -/
theorem splitLine_of_append {buf R l rest : Text} (hl : '\n' ∉ l)
    (h : buf ++ R = l ++ '\n' :: rest) :
    (splitLine buf = none ∧ ∃ l', l = buf ++ l' ∧ R = l' ++ '\n' :: rest) ∨
      ∃ buf', splitLine buf = some (l, buf') ∧ buf' ++ R = rest := by
  rcases List.append_eq_append_iff.mp h with ⟨l', rfl, hR⟩ | ⟨buf', rfl, hrest⟩
  · left
    refine ⟨?_, l', rfl, hR⟩
    simp only [List.mem_append, not_or] at hl
    simp [splitLine, hl.1]
  · cases buf' with
    | nil =>
        left
        refine ⟨by simp [splitLine, hl], [], by simp, ?_⟩
        simpa using hrest.symm
    | cons c buf' =>
        right
        simp only [List.cons_append, List.cons.injEq] at hrest
        obtain ⟨rfl, rfl⟩ := hrest
        exact ⟨buf', splitLine_line hl buf', rfl⟩

theorem splitLine_prompt {buf R : Text} (h : buf ++ R = prompt) : splitLine buf = none := by
  have hmem : '\n' ∉ buf := by
    intro hn
    have : '\n' ∈ prompt := h ▸ List.mem_append_left R hn
    exact absurd this (by decide)
  simp [splitLine, hmem]

/-- `Pays fr r R es`: the turn `r` of the framer that owes `es` raises nothing and
puts out part of it; and all of it when the loop ends with no text to come. -/
def Pays (r : ShellFramer × Except PyError (List (Event F) × Bool)) (R : Text)
    (es : List (Event F)) : Prop :=
  ∃ fr' evs go es', r = (fr', .ok (evs, go)) ∧ Owes U P fr' R es' ∧
    Event.Same es (evs ++ es') ∧ (go = false → R = [] → es' = [])

/-- Within the echo or a line that stays, nothing happens yet. -/
theorem pays_same {fr : ShellFramer} {R : Text} {es : List (Event F)} (h : Owes U P fr R es)
    (hR : R ≠ []) : Pays U P (fr, .ok ([], false)) R es :=
  ⟨fr, [], false, es, rfl, h, .refl es, fun _ h => absurd h hR⟩

/-- When the head of a text line goes out, its rest is owed as text. -/
theorem head_pays {fr : ShellFramer} {l' : Text} {todo : List Text} (hstate : fr.state = .stream)
    (hl' : '\n' ∉ l') (hplain : ∀ l ∈ todo, PlainLine l)
    (hok : (lineEvents U P fr.toLineState ((fr.buf ++ l') :: todo)).raised = none)
    (hline : completeLine U P fr.toLineState (fr.buf ++ l') =
      ({ fr.toLineState with lineIsText := false }, .ok [.text (fr.buf ++ l' ++ ['\n'])])) :
    Pays U P ({ fr with buf := [], lineIsText := true }, .ok ([.text fr.buf], false))
      (l' ++ '\n' :: (unlines todo ++ prompt))
      ((lineEvents U P fr.toLineState ((fr.buf ++ l') :: todo)).events ++ [.done]) := by
  have hrest := completeLine_inText U P (s := { fr.toLineState with lineIsText := true }) hstate
    rfl l'
  rw [lineEvents_ok hline] at hok ⊢
  refine ⟨_, _, _, _, rfl, .inside hstate rfl hl' rfl hplain ?_, ?_, by simp⟩
  · rw [show ({ fr with buf := [], lineIsText := true } : ShellFramer).toLineState =
      { fr.toLineState with lineIsText := true } from rfl, lineEvents_ok hrest]
    exact hok
  · rw [show ({ fr with buf := [], lineIsText := true } : ShellFramer).toLineState =
      { fr.toLineState with lineIsText := true } from rfl, lineEvents_ok hrest]
    simp only [Course.behind, List.append_assoc, List.singleton_append]
    exact .cut _ _ _

/-- A line off the buffer pays what it comes to. -/
theorem line_pays {fr : ShellFramer} {R l buf' : Text} {todo : List Text}
    (hstate : fr.state ≠ .echo) (hrest : buf' ++ R = unlines todo ++ prompt)
    (hplain : ∀ l ∈ todo, PlainLine l)
    (hok : (lineEvents U P fr.toLineState (l :: todo)).raised = none) :
    Pays U P (match completeLine U P fr.toLineState l with
      | (s, .error e) => ({ fr with buf := buf', toLineState := s }, .error e)
      | (s, .ok evs) => ({ fr with buf := buf', toLineState := s }, .ok (evs, true))) R
      ((lineEvents U P fr.toLineState (l :: todo)).events ++ [.done]) := by
  obtain ⟨s', evs, hline, hevents, hok'⟩ := lineEvents_cons hok
  have hstate' := completeLine_state U P hstate l
  have htext' := completeLine_lineIsText U P fr.toLineState l
  rw [hline] at hstate' htext' ⊢
  refine ⟨_, _, _, _, rfl, .front hstate' htext' hrest hplain hok', ?_, by simp⟩
  rw [hevents, Course.behind, List.append_assoc]
  exact .refl _

/-- **The step lemma.**  A turn pays part of what is owed, and a loop that ends
with no text to come has paid it all. -/
theorem turn_owes {fr : ShellFramer} {R : Text} {es : List (Event F)} (h : Owes U P fr R es) :
    Pays U P (turn U P fr) R es := by
  have hcopy := h
  cases h with
  | @echo line todo hstate htext hline hecho hbuf hplain hok =>
      unfold turn
      rw [if_pos hstate]
      rcases splitLine_of_append hline hbuf with ⟨hnone, l', -, rfl⟩ | ⟨buf', hsome, hrest⟩
      · rw [hnone]
        exact pays_same U P hcopy (by simp)
      · rw [hsome]
        have hseen : ((fr.echoSeen ++ line).isPrefixOf fr.echoExpect &&
            decide ((fr.echoSeen ++ line).length < fr.echoExpect.length)) = false := by
          rw [Bool.and_eq_false_iff, decide_eq_false_iff_not]
          by_cases hpre : fr.echoSeen ++ line <+: fr.echoExpect
          · exact .inr fun hlt => hecho ⟨hpre, hlt⟩
          · left
            rw [← Bool.not_eq_true, List.isPrefixOf_iff_prefix]
            exact hpre
        simp only [hseen, Bool.false_eq_true, if_false]
        exact ⟨_, _, _, _, rfl, .front (by simp) htext hrest hplain hok, .refl _, by simp⟩
  | @front todo hstate htext hbuf hplain hok =>
      unfold turn
      rw [if_neg hstate]
      cases todo with
      | nil =>
          simp only [unlines_nil, List.nil_append] at hbuf
          rw [splitLine_prompt hbuf]
          by_cases hp : prompt <+: fr.buf
          · -- the prompt is complete
            have hfull : fr.buf = prompt ∧ R = [] := by
              obtain ⟨t, ht⟩ := hp
              rw [← ht, List.append_assoc] at hbuf
              have htR : t ++ R = [] := List.append_right_eq_self.mp hbuf
              obtain ⟨rfl, rfl⟩ := List.append_eq_nil_iff.mp htR
              exact ⟨by simpa using ht.symm, rfl⟩
            simp only [htext, List.isPrefixOf_iff_prefix.mpr hp, and_self, if_true]
            exact ⟨_, _, _, [], rfl, .paid rfl rfl (by simp [hfull.1]) hfull.2, .refl _,
              fun _ _ => rfl⟩
          · have hheld : fr.buf ≠ [] → mustHold U fr.buf = true :=
              fun hne => mustHold_of_prompt U hne ⟨R, hbuf⟩
            have hp' : ¬ (fr.lineIsText = false ∧ prompt.isPrefixOf fr.buf = true) := by
              rw [List.isPrefixOf_iff_prefix]
              exact fun h => hp h.2
            have hemit : ¬ (fr.state = .stream ∧ fr.buf ≠ [] ∧
                (fr.lineIsText = true ∨ mustHold U fr.buf = false)) := by
              rintro ⟨-, hne, h | h⟩
              · rw [htext] at h
                cases h
              · rw [hheld hne] at h
                cases h
            simp only [if_neg hp', if_neg hemit]
            refine pays_same U P hcopy ?_
            rintro rfl
            exact hp ⟨[], by simpa using hbuf.symm⟩
      | cons l todo =>
          obtain ⟨hl, hplain'⟩ := List.forall_mem_cons.mp hplain
          simp only [unlines_cons, List.append_assoc, List.cons_append] at hbuf
          rcases splitLine_of_append hl.noNewline hbuf with
            ⟨hnone, l', rfl, rfl⟩ | ⟨buf', hsome, hrest⟩
          · rw [hnone]
            have hp : ¬ (fr.lineIsText = false ∧ prompt.isPrefixOf fr.buf = true) := by
              rw [List.isPrefixOf_iff_prefix]
              exact fun h => hl.noPrompt (h.2.trans (List.prefix_append _ _))
            simp only [hp, if_false]
            split
            · next hemit =>
                -- the head of a text line goes out
                obtain ⟨hstream, hne, hheld⟩ := hemit
                have hheld : mustHold U fr.buf = false := by
                  rcases hheld with h | h
                  · rw [htext] at h
                    cases h
                  · exact h
                have hl' : '\n' ∉ l' := fun h => hl.noNewline (List.mem_append_right _ h)
                exact head_pays U P hstream hl' hplain' hok
                  (completeLine_of_not_held U P hstream htext hne (List.prefix_append _ _) hheld)
            · exact pays_same U P hcopy (by simp)
          · rw [hsome]
            exact line_pays U P hstate hrest hplain' hok
  | @inside l todo hstate htext hl hbuf hplain hok =>
      have hecho : fr.state ≠ .echo := by
        rw [hstate]
        decide
      unfold turn
      rw [if_neg hecho]
      rcases splitLine_of_append hl hbuf with ⟨hnone, l', rfl, rfl⟩ | ⟨buf', hsome, hrest⟩
      · rw [hnone]
        have hp : ¬ (fr.lineIsText = false ∧ prompt.isPrefixOf fr.buf = true) := by
          rw [htext]
          simp
        simp only [hp, if_false]
        split
        · have hl' : '\n' ∉ l' := fun h => hl (List.mem_append_right _ h)
          exact head_pays U P hstate hl' hplain hok (completeLine_inText U P hstate htext _)
        · exact pays_same U P hcopy (by simp)
      · rw [hsome]
        exact line_pays U P hecho hrest hplain hok
  | paid hstate htext hbuf hR =>
      subst hR
      have hprompt : ¬ (fr.lineIsText = false ∧ prompt.isPrefixOf ([] : Text) = true) := by
        rintro ⟨-, h⟩
        cases List.prefix_nil.mp (List.isPrefixOf_iff_prefix.mp h)
      have hturn : turn U P fr = (fr, .ok ([], false)) := by
        unfold turn
        rw [hbuf, if_neg (by rw [hstate]; decide), show splitLine [] = none from rfl]
        simp only [hprompt, if_false]
        rw [if_neg (by simp)]
      rw [hturn]
      exact ⟨fr, [], false, [], rfl, hcopy, .refl _, fun _ _ => rfl⟩

/-! ## The loop and the pieces -/

theorem splitLine_length {buf line rest : Text} (h : splitLine buf = some (line, rest)) :
    rest.length < buf.length := by
  unfold splitLine at h
  split at h
  · next hmem =>
      obtain ⟨rfl, rfl⟩ := Prod.mk.inj (Option.some.inj h)
      have hdrop : (buf.dropWhile (· != '\n')) ≠ [] := by
        intro hnil
        have := List.dropWhile_eq_nil_iff.mp hnil '\n' hmem
        simp at this
      have hle : (buf.dropWhile (· != '\n')).length ≤ buf.length :=
        (List.dropWhile_suffix _).length_le
      have hpos := List.length_pos_iff.mpr hdrop
      rw [List.length_drop]
      omega
  · cases h

/-- A turn that goes on takes something off the buffer. -/
theorem turn_length {fr fr' : ShellFramer} {evs : List (Event F)}
    (h : turn U P fr = (fr', .ok (evs, true))) : fr'.buf.length < fr.buf.length := by
  unfold turn at h
  split at h
  · split at h
    · cases h
    · next line rest hsome =>
        have hlen := splitLine_length hsome
        dsimp only at h
        split at h
        · cases h
          exact hlen
        · cases h
          exact hlen
  · split at h
    · next line rest hsome =>
        have hlen := splitLine_length hsome
        split at h
        · cases h
        · cases h
          exact hlen
    · split at h
      · next hp =>
          have hle := (List.isPrefixOf_iff_prefix.mp hp.2).length_le
          have hpos : 0 < prompt.length := by decide
          cases h
          simp only [List.length_drop]
          omega
      · split at h
        · cases h
        · cases h

theorem turn_raw (fr : ShellFramer) : (turn U P fr).1.raw = fr.raw := by
  unfold turn
  split
  · split
    · rfl
    · dsimp only
      split
      · rfl
      · rfl
  · split
    · split
      · rfl
      · rfl
    · split
      · rfl
      · split
        · rfl
        · rfl

/-- The loop, turn by turn. -/
theorem turns_wait {n : Nat} {fr fr' : ShellFramer} {evs : List (Event F)}
    (h : turn U P fr = (fr', .ok (evs, false))) : turns U P (n + 1) fr = (fr', .ok evs) := by
  rw [turns, h]

theorem turns_again {n : Nat} {fr fr' fr'' : ShellFramer} {evs evs' : List (Event F)}
    (h : turn U P fr = (fr', .ok (evs, true))) (h' : turns U P n fr' = (fr'', .ok evs')) :
    turns U P (n + 1) fr = (fr'', .ok (evs ++ evs')) := by
  rw [turns, h]
  dsimp only
  rw [h']

theorem turns_raw : ∀ (n : Nat) (fr : ShellFramer), (turns U P n fr).1.raw = fr.raw
  | 0, _ => rfl
  | n + 1, fr => by
      have hturn := turn_raw U P fr
      unfold turns
      split
      · next h => rw [← hturn, h]
      · next h => rw [← hturn, h]
      · next fr' evs h =>
          have hrest := turns_raw n fr'
          rw [h] at hturn
          split
          · next h' =>
              rw [h'] at hrest
              exact hrest.trans hturn
          · next h' =>
              rw [h'] at hrest
              exact hrest.trans hturn

/-- The loop pays until it ends. -/
theorem turns_owes {R : Text} : ∀ (n : Nat) {fr : ShellFramer} {es : List (Event F)},
    fr.buf.length < n → Owes U P fr R es →
    ∃ fr' evs es', turns U P n fr = (fr', .ok evs) ∧ Owes U P fr' R es' ∧
      Event.Same es (evs ++ es') ∧ (R = [] → es' = []) := by
  intro n
  induction n with
  | zero => intro fr es hn; omega
  | succ n ih =>
      intro fr es hn h
      obtain ⟨fr₁, evs₁, go, es₁, hturn, howes, hsame, hend⟩ := turn_owes U P h
      cases go with
      | false => exact ⟨fr₁, evs₁, es₁, turns_wait U P hturn, howes, hsame, hend rfl⟩
      | true =>
          have hlen := turn_length U P hturn
          obtain ⟨fr₂, evs₂, es₂, hturns, howes₂, hsame₂, hend₂⟩ := ih (by omega) howes
          refine ⟨fr₂, _, es₂, turns_again U P hturn hturns, howes₂, hsame.trans ?_, hend₂⟩
          rw [List.append_assoc]
          exact hsame₂.append_left _

/-- The text still to come may join the buffer. -/
theorem Owes.more {fr : ShellFramer} {x R : Text} {es : List (Event F)}
    (h : Owes U P fr (x ++ R) es) (raw : Text) :
    Owes U P { fr with raw := raw, buf := fr.buf ++ x } R es := by
  cases h with
  | echo h₁ h₂ h₃ h₄ h₅ h₆ h₇ =>
      exact .echo h₁ h₂ h₃ h₄ (by rw [← h₅, List.append_assoc]) h₆ h₇
  | front h₁ h₂ h₃ h₄ h₅ => exact .front h₁ h₂ (by rw [← h₃, List.append_assoc]) h₄ h₅
  | inside h₁ h₂ h₃ h₄ h₅ h₆ => exact .inside h₁ h₂ h₃ (by rw [← h₄, List.append_assoc]) h₅ h₆
  | paid h₁ h₂ h₃ h₄ =>
      obtain ⟨hx, hR⟩ := List.append_eq_nil_iff.mp h₄
      exact .paid h₁ h₂ (by simp [h₃, hx]) hR

/-- `.replace("\r", "")` -/
def noCr (s : Text) : Text := s.filter (· != '\r')

/-- `feed`, with the new text told from what is withheld. -/
theorem feed_scan {fr : ShellFramer} {h : Held} (hraw : fr.raw = h.text) (data : Text) :
    fr.feed U P data = turns U P ((fr.buf ++ noCr (h.scan data).1).length + 1)
      { fr with raw := (h.scan data).2.text, buf := fr.buf ++ noCr (h.scan data).1 } := by
  obtain ⟨hout, hheld⟩ := ansiCut_scan h data
  unfold ShellFramer.feed
  dsimp only
  rw [hraw, hout, hheld]
  rfl

theorem feed_raw {fr : ShellFramer} {h : Held} (hraw : fr.raw = h.text) (data : Text) :
    (fr.feed U P data).1.raw = (h.scan data).2.text := by
  rw [feed_scan U P hraw, turns_raw]

theorem feeds_ok {fr fr' : ShellFramer} {data : Text} {evs : List (Event F)}
    (h : fr.feed U P data = (fr', .ok evs)) (chunks : List Text) :
    fr.feeds U P (data :: chunks) =
      ((fr'.feeds U P chunks).1, (fr'.feeds U P chunks).2.behind evs) := by
  rw [ShellFramer.feeds, h]

/-- **One piece.**  A piece of the stream pays what its cleaned text owes. -/
theorem feed_owes {fr : ShellFramer} {h : Held} (hraw : fr.raw = h.text) (data : Text) {R : Text}
    {es : List (Event F)} (howes : Owes U P fr (noCr (h.scan data).1 ++ R) es) :
    ∃ fr' evs es', fr.feed U P data = (fr', .ok evs) ∧ Owes U P fr' R es' ∧
      Event.Same es (evs ++ es') ∧ fr'.raw = (h.scan data).2.text ∧ (R = [] → es' = []) := by
  obtain ⟨fr', evs, es', hturns, h₁, h₂, h₃⟩ :=
    turns_owes U P _ (Nat.lt_succ_self _) (howes.more U P (h.scan data).2.text)
  have hfeed := (feed_scan U P hraw data).trans hturns
  have hraw' := feed_raw U P hraw data
  rw [hfeed] at hraw'
  exact ⟨fr', evs, es', hfeed, h₁, h₂, hraw', h₃⟩

/-- **The run lemma.**  A run of pieces pays all that the stream's cleaned text
owes, wherever the stream is cut. -/
theorem feeds_owes : ∀ (chunks : List Text) {fr : ShellFramer} {h : Held} {es : List (Event F)},
    chunks ≠ [] → fr.raw = h.text → Owes U P fr (noCr (h.scan chunks.flatten).1) es →
    Event.Same es (fr.feeds U P chunks).2.events ∧ (fr.feeds U P chunks).2.raised = none := by
  intro chunks
  induction chunks with
  | nil => intro fr h es hne; exact absurd rfl hne
  | cons data chunks ih =>
      intro fr h es _ hraw howes
      rw [List.flatten_cons, Held.scan_append] at howes
      simp only [noCr, List.filter_append] at howes
      obtain ⟨fr', evs, es', hfeed, howes', hsame, hraw', hend⟩ := feed_owes U P hraw data howes
      rw [feeds_ok U P hfeed]
      by_cases hlast : chunks = []
      · subst hlast
        obtain rfl := hend rfl
        exact ⟨hsame, rfl⟩
      · obtain ⟨hsame', hok⟩ := ih hlast hraw' howes'
        exact ⟨hsame.trans (hsame'.append_left _), hok⟩

/-- **However the stream is cut**, its events are those of its lines and of the
prompt, and nothing is raised. -/
theorem feeds_lines (expectFooter : Bool) {cmd line : Text} {todo chunks : List Text}
    (hclean : noCr (Held.clear.scan chunks.flatten).1 = line ++ '\n' :: (unlines todo ++ prompt))
    (hline : '\n' ∉ line) (hecho : ¬ (line <+: cmd ∧ line.length < cmd.length))
    (hplain : ∀ l ∈ todo, PlainLine l)
    (hok : (lineEvents U P ⟨expectFooter, .stream, false, []⟩ todo).raised = none) :
    Event.Same
        ((lineEvents U P ⟨expectFooter, .stream, false, []⟩ todo).events ++ [.done])
        ((ShellFramer.new expectFooter cmd).feeds U P chunks).2.events ∧
      ((ShellFramer.new expectFooter cmd).feeds U P chunks).2.raised = none := by
  have hne : chunks ≠ [] := by
    rintro rfl
    simp [noCr] at hclean
  refine feeds_owes U P chunks hne (h := .clear) rfl ?_
  exact .echo rfl rfl hline hecho hclean hplain hok

end lines

end TinyLlm
