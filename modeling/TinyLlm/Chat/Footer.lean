/-
# `TinyLlm.Chat.Footer` — the footer, and the streams that do not hang on the cut

A framer that gets the prompt and more text up to a line end in one piece takes
them for a line; a framer whose piece ends in between takes the prompt for the
end.  And where the footer holds a number that Python refuses, the exception
takes along what the piece had come to before.  `CutHarmless` says which
streams this leaves alone.

The lines of a stream come to the text before the footer mark and to the footer
(`lineEvents_mark`), which is statistics, an exception or nothing
(`footerCourse`).  Hence a harmless stream is calm (`CutHarmless.calm`).
-/
import TinyLlm.Chat.Chunking

namespace TinyLlm

open Event (texts controls)

/-! ## The condition -/

section conditions

variable {F : Type*} (U : PyUnicode) (P : PyFloat F)

/-- The lines of the footer: the first two behind the footer mark, log lines
apart. -/
def footerLines (ls : List Text) : List Text :=
  (((ls.dropWhile (· != footerMark)).drop 1).filter fun l => !isLogLine U l).take 2

/-- The statistics that the lines of the footer hold. -/
def footerStats (ls : List Text) : Except PyError (Option (GenStats F)) :=
  if (footerLines U ls).length = 2 then
    parseStatsSerial U P (List.intercalate ['\n'] (footerLines U ls))
  else .ok none

/-- A footer is read, and holds a number that Python refuses. -/
def FooterRaises (expectFooter : Bool) (ls : List Text) : Prop :=
  expectFooter = true ∧ footerMark ∈ ls ∧ ∃ e, footerStats U P ls = .error e

/-- Nothing is put out before such a footer: all lines before the footer mark
are log lines, and no line of the footer begins with the prompt. -/
def RaiseHarmless (ls : List Text) : Prop :=
  (∀ l ∈ ls.takeWhile (· != footerMark), isLogLine U l = true) ∧
    ∀ l ∈ footerLines U ls, ¬ prompt <+: l

/-- No finished line begins with the prompt; or else the first that does stands
behind the footer mark, no statistics are completed from it on, and the
unfinished line begins with the prompt again. -/
def PromptHarmless (expectFooter : Bool) (ls : List Text) (p : Text) : Prop :=
  let before := ls.takeWhile fun l => !prompt.isPrefixOf l
  before = ls ∨
    expectFooter = true ∧ footerMark ∈ before ∧
      footerStats U P ls = footerStats U P before ∧ prompt <+: p

/-- The lines behind the echo leave the cut alone. -/
def CutHarmless (expectFooter : Bool) (echo s : Text) : Prop :=
  ∀ ls ∈ behindEcho echo [] (lines (cleaned s)).1,
    (FooterRaises U P expectFooter ls ∧ RaiseHarmless U ls) ∨
      (¬ FooterRaises U P expectFooter ls ∧
        PromptHarmless U P expectFooter ls (lines (cleaned s)).2)

end conditions

section prompt

variable {F : Type*} {U : PyUnicode} {P : PyFloat F}

/-! ## The lines of the footer -/

/-- A fresh framer behind the echo. -/
def streaming (expectFooter : Bool) : LineState := ⟨expectFooter, .stream, false, []⟩

/-- Lines of which nothing is put out come to no event. -/
theorem lineEvents_eq_nil {s : LineState} {ls : List Text}
    (htexts : texts (lineEvents U P s ls).events = [])
    (herrors : Event.errors (lineEvents U P s ls).events = [])
    (hstats : Event.statistics (lineEvents U P s ls).events = []) :
    (lineEvents U P s ls).events = [] := by
  induction ls generalizing s with
  | nil => rfl
  | cons l ls ih =>
      rcases hline : completeLine U P s l with ⟨s', e | evs⟩
      · rw [lineEvents_error hline]
      · rw [lineEvents_ok hline, Course.behind] at htexts herrors hstats ⊢
        rw [Event.texts_append, List.append_eq_nil_iff] at htexts
        rw [Event.errors_append, List.append_eq_nil_iff] at herrors
        rw [Event.statistics_append, List.append_eq_nil_iff] at hstats
        dsimp only
        rw [ih htexts.2 herrors.2 hstats.2, List.append_nil]
        rcases completeLine_events hline with rfl | ⟨v, rfl⟩ | ⟨v, rfl⟩ | ⟨v, rfl⟩
        · rfl
        · simp [texts] at htexts
        · simp [Event.errors] at herrors
        · simp [Event.statistics] at hstats

/-- Behind lines that raise nothing. -/
theorem lineEvents_append {s : LineState} {a : List Text} (h : (lineEvents U P s a).raised = none)
    (b : List Text) : lineEvents U P s (a ++ b) =
      (lineEvents U P (behindLines U P s a) b).behind (lineEvents U P s a).events := by
  induction a generalizing s with
  | nil => rfl
  | cons l a ih =>
      obtain ⟨s', evs, hline, hevents, hok⟩ := lineEvents_cons h
      rw [List.cons_append, lineEvents_ok hline, ih hok, hevents, Course.behind_behind,
        behindLines_cons, hline]
      rfl

/-- Behind the footer nothing is put out. -/
theorem lineEvents_tail {s : LineState} (hs : s.state = .tail) (ls : List Text) :
    lineEvents U P s ls = ⟨[], none⟩ := by
  induction ls generalizing s with
  | nil => rfl
  | cons l ls ih =>
      rw [lineEvents_ok (completeLine_tail hs l), ih (s := { s with lineIsText := false }) hs]
      rfl

/-- What the footer comes to. -/
def footerCourse : Except PyError (Option (GenStats F)) → Course F
  | .error e => ⟨[], some e⟩
  | .ok st => ⟨st.toList.map .stats, none⟩

theorem footerCourse_injective {st st' : Except PyError (Option (GenStats F))}
    (h : footerCourse st = footerCourse st') : st = st' := by
  cases st with
  | error e =>
      cases st' with
      | error e' =>
          obtain rfl := Option.some.inj (congrArg Course.raised h)
          rfl
      | ok v => cases congrArg Course.raised h
  | ok v =>
      cases st' with
      | error e' => cases congrArg Course.raised h
      | ok v' =>
          have hlist := List.map_injective_iff.mpr (fun _ _ h => Event.stats.inj h)
            (congrArg Course.events h)
          have hhead := congrArg List.head? hlist
          rw [Option.head?_toList, Option.head?_toList] at hhead
          rw [hhead]

/-- In the footer the first two lines count, log lines apart. -/
theorem lineEvents_footerLines (e : Bool) (ls : List Text) : ∀ f : List Text, f.length < 2 →
    lineEvents U P ⟨e, .footer, false, f⟩ ls =
      footerCourse (if ((f ++ ls.filter fun l => !isLogLine U l).take 2).length = 2 then
        parseStatsSerial U P (List.intercalate ['\n']
          ((f ++ ls.filter fun l => !isLogLine U l).take 2))
      else .ok none) := by
  induction ls with
  | nil =>
      intro f hf
      rw [if_neg (by simp; omega)]
      rfl
  | cons l ls ih =>
      intro f hf
      cases hlog : isLogLine U l with
      | true =>
          rw [lineEvents_ok (completeLine_log U P rfl hlog),
            List.filter_cons_of_neg (by simp [hlog]), ih f hf]
          rfl
      | false =>
          rw [List.filter_cons_of_pos (by simp [hlog])]
          by_cases hlen : (f ++ [l]).length = 2
          · have htake : (f ++ l :: ls.filter fun l => !isLogLine U l).take 2 = f ++ [l] := by
              rw [List.append_cons, ← hlen, List.take_left']
              rfl
            rw [htake, if_pos hlen]
            rcases hstats : parseStatsSerial U P (List.intercalate ['\n'] (f ++ [l])) with
              e' | _ | st
            · have hline : completeLine U P ⟨e, .footer, false, f⟩ l =
                  (⟨e, .tail, false, f ++ [l]⟩, .error e') := by
                simp only [completeLine, hlog, hlen, hstats]
                rfl
              rw [lineEvents_error hline]
              rfl
            · have hline : completeLine U P ⟨e, .footer, false, f⟩ l =
                  (⟨e, .tail, false, f ++ [l]⟩, .ok []) := by
                simp only [completeLine, hlog, hlen, hstats]
                rfl
              rw [lineEvents_ok hline, lineEvents_tail rfl]
              rfl
            · have hline : completeLine U P ⟨e, .footer, false, f⟩ l =
                  (⟨e, .tail, false, f ++ [l]⟩, .ok [.stats st]) := by
                simp only [completeLine, hlog, hlen, hstats]
                rfl
              rw [lineEvents_ok hline, lineEvents_tail rfl]
              rfl
          · have hline : completeLine U P ⟨e, .footer, false, f⟩ l =
                (⟨e, .footer, false, f ++ [l]⟩, .ok []) := by
              simp only [completeLine, hlog, hlen]
              rfl
            have hlt : (f ++ [l]).length < 2 := by
              rw [List.length_append] at hlen ⊢
              simp only [List.length_singleton] at hlen ⊢
              omega
            rw [lineEvents_ok hline, ih _ hlt, List.append_assoc, List.singleton_append,
              Course.behind_nil]

/-- Until the footer mark the framer stays in the stream. -/
theorem completeLine_streaming {expectFooter : Bool} {l : Text}
    (h : ¬ (expectFooter = true ∧ l = footerMark)) :
    completeLine U P (streaming expectFooter) l = (streaming expectFooter,
      .ok (if isLogLine U l then [] else if isError l then [.error l]
        else [.text (l ++ ['\n'])])) := by
  have hmark : ¬ (l = footerMark ∧ expectFooter = true) := fun hm => h hm.symm
  simp only [completeLine, streaming, hmark]
  split_ifs <;> simp_all

theorem streaming_unmarked {expectFooter : Bool} {ls : List Text}
    (h : ¬ (expectFooter = true ∧ footerMark ∈ ls)) :
    behindLines U P (streaming expectFooter) ls = streaming expectFooter ∧
      (lineEvents U P (streaming expectFooter) ls).raised = none := by
  induction ls with
  | nil => exact ⟨rfl, rfl⟩
  | cons l ls ih =>
      have hline := @completeLine_streaming F U P expectFooter l
        (fun hm => h ⟨hm.1, hm.2 ▸ List.mem_cons_self⟩)
      rw [behindLines_cons, lineEvents_ok hline, hline]
      exact ih fun hm => h ⟨hm.1, List.mem_cons_of_mem l hm.2⟩

theorem ne_footerMark {ls : List Text} (h : footerMark ∉ ls) :
    ∀ m ∈ ls, (m != footerMark) = true := by
  intro m hm
  rw [bne_iff_ne]
  rintro rfl
  exact h hm

/-- Lines with the footer mark come to the text before it and the footer. -/
theorem lineEvents_mark {ls : List Text} (h : footerMark ∈ ls) :
    lineEvents U P (streaming true) ls = (footerCourse (footerStats U P ls)).behind
      (lineEvents U P (streaming true) (ls.takeWhile (· != footerMark))).events := by
  obtain ⟨a, b, rfl, ha⟩ := List.eq_append_cons_of_mem h
  have hne := ne_footerMark ha
  have hlines : footerLines U (a ++ footerMark :: b) =
      (b.filter fun l => !isLogLine U l).take 2 := by
    rw [footerLines, List.dropWhile_append_of_pos hne]
    simp
  have hmark : completeLine U P (streaming true) footerMark =
      (⟨true, .footer, false, []⟩, .ok []) := by
    have hlog : isLogLine U footerMark = false := not_isLogLine U (by decide) _
    simp [completeLine, streaming, hlog]
  obtain ⟨hstate, hok⟩ :=
    @streaming_unmarked F U P true a (fun h => ha h.2)
  rw [lineEvents_append hok, hstate, lineEvents_ok hmark, Course.behind_nil,
    lineEvents_footerLines true b [] (by decide), List.takeWhile_append_of_pos hne, footerStats,
    hlines]
  simp

/-- The lines raise an exception just when their footer does. -/
theorem raised_iff {expectFooter : Bool} {ls : List Text} :
    (lineEvents U P (streaming expectFooter) ls).raised = none ↔
      ¬ FooterRaises U P expectFooter ls := by
  by_cases hmark : expectFooter = true ∧ footerMark ∈ ls
  · obtain ⟨rfl, hmem⟩ := hmark
    rw [lineEvents_mark hmem, FooterRaises, Course.behind]
    rcases hstats : footerStats U P ls with e | st
    · simp [footerCourse, hmem]
    · simp [footerCourse]
  · refine iff_of_true (streaming_unmarked hmark).2 ?_
    rintro ⟨he, hm, -⟩
    exact hmark ⟨he, hm⟩

theorem mem_of_footerLines {l : Text} {ls : List Text} (h : l ∈ footerLines U ls) : l ∈ ls :=
  (List.dropWhile_suffix _).subset
    (List.mem_of_mem_drop (List.mem_of_mem_filter (List.mem_of_mem_take h)))

/-- A footer that is complete stays what it is. -/
theorem footerLines_append {before : List Text} (hmark : footerMark ∈ before)
    (h : (footerLines U before).length = 2) (after : List Text) :
    footerLines U (before ++ after) = footerLines U before := by
  obtain ⟨a, b, rfl, ha⟩ := List.eq_append_cons_of_mem hmark
  have hlines : ∀ b, footerLines U (a ++ footerMark :: b) =
      (b.filter fun l => !isLogLine U l).take 2 := by
    intro b
    rw [footerLines, List.dropWhile_append_of_pos (ne_footerMark ha)]
    simp
  rw [hlines] at h
  rw [List.append_assoc, List.cons_append, hlines, hlines, List.filter_append,
    List.take_append_of_le_length]
  rw [List.length_take] at h
  omega

theorem footerStats_error {ls : List Text} {e : PyError} (h : footerStats U P ls = .error e) :
    (footerLines U ls).length = 2 := by
  unfold footerStats at h
  split at h
  · assumption
  · cases h

/-- What raises goes on raising. -/
theorem FooterRaises.append {expectFooter : Bool} {before : List Text}
    (h : FooterRaises U P expectFooter before) (after : List Text) :
    FooterRaises U P expectFooter (before ++ after) ∧
      footerLines U (before ++ after) = footerLines U before := by
  obtain ⟨he, hmem, e, hstats⟩ := h
  have hlines := footerLines_append hmem (footerStats_error hstats) after
  refine ⟨⟨he, List.mem_append_left _ hmem, e, ?_⟩, hlines⟩
  unfold footerStats at hstats ⊢
  rw [hlines]
  exact hstats

/-- A line that begins with the prompt is text in the stream. -/
theorem completeLine_prompt {l : Text} (h : prompt <+: l) (expectFooter : Bool) :
    completeLine U P (streaming expectFooter) l =
      (streaming expectFooter, .ok [.text (l ++ ['\n'])]) := by
  obtain ⟨r, rfl⟩ := h
  rw [prompt_head, List.cons_append]
  have hlog : isLogLine U ('t' :: ("inyllm> ".toList ++ r)) = false :=
    not_isLogLine U (by decide) _
  have herr : isError ('t' :: ("inyllm> ".toList ++ r)) = false := rfl
  have hmark : 't' :: ("inyllm> ".toList ++ r) ≠ footerMark := by
    intro h
    exact absurd (List.cons.inj h).1 (by decide)
  rw [completeLine_streaming fun h => hmark h.2, hlog, herr]
  rfl

/-- Lines from one on that begins with the prompt come to no event just when
they stand behind the footer mark and complete no statistics. -/
theorem lineEvents_silent_iff {expectFooter : Bool} {before after : List Text} {l : Text}
    (h : prompt <+: l) (hok : ¬ FooterRaises U P expectFooter before) :
    lineEvents U P (behindLines U P (streaming expectFooter) before) (l :: after) = ⟨[], none⟩ ↔
      expectFooter = true ∧ footerMark ∈ before ∧
        footerStats U P (before ++ l :: after) = footerStats U P before := by
  by_cases hmark : expectFooter = true ∧ footerMark ∈ before
  · obtain ⟨rfl, hmem⟩ := hmark
    have hwhole := lineEvents_mark (U := U) (P := P) (List.mem_append_left (l :: after) hmem)
    have htake : (before ++ l :: after).takeWhile (· != footerMark) =
        before.takeWhile (· != footerMark) := by
      obtain ⟨a, b, rfl, ha⟩ := List.eq_append_cons_of_mem hmem
      rw [List.append_assoc, List.takeWhile_append_of_pos (ne_footerMark ha),
        List.takeWhile_append_of_pos (ne_footerMark ha)]
      simp
    obtain ⟨st, hst⟩ : ∃ st, footerStats U P before = .ok st := by
      rcases hst : footerStats U P before with e | st
      · exact absurd ⟨rfl, hmem, e, hst⟩ hok
      · exact ⟨st, rfl⟩
    rw [lineEvents_append (raised_iff.mpr hok), lineEvents_mark hmem, htake] at hwhole
    simp only [hmem, true_and]
    constructor
    · intro hnil
      rw [hnil] at hwhole
      refine (footerCourse_injective ?_).symm
      have hevents := congrArg Course.events hwhole
      have hraised := congrArg Course.raised hwhole
      simp only [Course.behind, List.append_nil, List.append_cancel_left_eq] at hevents hraised
      rw [hst] at hevents ⊢
      exact congrArg₂ Course.mk hevents hraised
    · intro hstats
      rw [hstats, hst] at hwhole
      have hevents := congrArg Course.events hwhole
      have hraised := congrArg Course.raised hwhole
      simp only [Course.behind, List.append_assoc, List.append_cancel_left_eq] at hevents hraised
      exact congrArg₂ Course.mk (List.append_right_eq_self.mp hevents) hraised
  · rw [(streaming_unmarked hmark).1, lineEvents_ok (completeLine_prompt h _)]
    refine iff_of_false (fun hnil => ?_) ?_
    · have hevents := congrArg Course.events hnil
      simp [Course.behind] at hevents
    · rintro ⟨he, hm, -⟩
      exact hmark ⟨he, hm⟩

/-! ## Which streams do not hang on the cut -/

theorem behindLines_lineIsText (s : LineState) (l : Text) (ls : List Text) :
    (behindLines U P s (l :: ls)).lineIsText = false := by
  induction ls generalizing s l with
  | nil => simp
  | cons l' ls ih =>
      rw [behindLines_cons]
      exact ih _ _

/-- Lines are calm where those that are come to do not begin with the prompt. -/
theorem calmLines_reached {ls : List Text} {p : Text} (s : LineState)
    (h : ∀ before l after, ls = before ++ l :: after → (lineEvents U P s before).raised = none →
      ¬ prompt <+: l) : CalmLines U P s ls p := by
  induction ls generalizing s with
  | nil => trivial
  | cons l ls ih =>
      refine ⟨fun _ hp => absurd hp (h [] l ls rfl rfl), ?_⟩
      rcases hline : completeLine U P s l with ⟨s', e | evs⟩
      · trivial
      · refine ih s' fun before m after heq hok => h (l :: before) m after ?_ ?_
        · rw [heq, List.cons_append]
        · rw [lineEvents_ok hline]
          exact hok

theorem calmLines_append {before ls : List Text} {p : Text} (s : LineState)
    (h : ∀ l ∈ before, ¬ prompt <+: l) (hls : CalmLines U P (behindLines U P s before) ls p) :
    CalmLines U P s (before ++ ls) p := by
  induction before generalizing s with
  | nil => exact hls
  | cons l before ih =>
      obtain ⟨hl, hbefore⟩ := List.forall_mem_cons.mp h
      refine ⟨fun _ hp => absurd hp hl, ?_⟩
      rw [behindLines_cons] at hls
      rcases hline : completeLine U P s l with ⟨s', e | evs⟩
      · trivial
      · rw [hline] at hls
        exact ih s' hbefore hls

/-- Lines of which none begins with the prompt are calm. -/
theorem calmLines_plain {ls : List Text} {p : Text} (s : LineState)
    (h : ∀ l ∈ ls, ¬ prompt <+: l) : CalmLines U P s ls p :=
  calmLines_reached s fun _ l _ heq _ => h l (by rw [heq]; simp)

/-- Lines that come to no event are calm when the prompt follows them. -/
theorem calmLines_silent {ls : List Text} {p : Text} (hp : prompt <+: p) (s : LineState)
    (h : lineEvents U P s ls = ⟨[], none⟩) : CalmLines U P s ls p := by
  induction ls generalizing s with
  | nil => trivial
  | cons l ls ih =>
      have hraised := congrArg Course.raised h
      obtain ⟨s', evs, hline, hevents, hok⟩ := lineEvents_cons hraised
      have hnil := congrArg Course.events (hevents.symm.trans h)
      simp only [Course.behind, List.append_eq_nil_iff] at hnil
      refine ⟨fun _ _ => ?_, ?_⟩
      · rw [textEvents_eq, h]
        dsimp only
        rw [lastEvents, if_pos]
        · exact .refl _
        · exact ⟨behindLines_lineIsText s l ls, List.isPrefixOf_iff_prefix.mpr hp⟩
      · rw [hline]
        exact ih s' (congrArg₂ Course.mk hnil.2 hok)

theorem calm_new {expectFooter : Bool} {echo p : Text} {ls : List Text}
    (h : ∀ ls' ∈ behindEcho echo [] ls, CalmLines U P (streaming expectFooter) ls' p) :
    Calm U P (ShellFramer.new expectFooter echo) ls p := by
  unfold Calm
  rw [if_pos (show (ShellFramer.new expectFooter echo).state = .echo from rfl)]
  exact h

/-- Where a line begins with the prompt, there is a first such. -/
theorem first_prompt : ∀ {ls : List Text}, (¬ ∀ l ∈ ls, ¬ prompt <+: l) →
    ∃ before l after, ls = before ++ l :: after ∧ (∀ m ∈ before, ¬ prompt <+: m) ∧
      prompt <+: l := by
  intro ls
  induction ls with
  | nil => exact fun h => absurd (by simp) h
  | cons l ls ih =>
      intro h
      by_cases hl : prompt <+: l
      · exact ⟨[], l, ls, rfl, by simp, hl⟩
      · have hls : ¬ ∀ m ∈ ls, ¬ prompt <+: m := fun hls => h (List.forall_mem_cons.mpr ⟨hl, hls⟩)
        obtain ⟨before, m, after, rfl, hbefore, hm⟩ := ih hls
        exact ⟨l :: before, m, after, rfl, List.forall_mem_cons.mpr ⟨hl, hbefore⟩, hm⟩

theorem not_prompt_eq_true {l : Text} : (!prompt.isPrefixOf l) = true ↔ ¬ prompt <+: l := by
  rw [Bool.not_eq_true', ← Bool.not_eq_true, List.isPrefixOf_iff_prefix]

/-- `PromptHarmless` said of the first line that begins with the prompt. -/
theorem promptHarmless_iff {expectFooter : Bool} {ls : List Text} {p : Text} :
    PromptHarmless U P expectFooter ls p ↔
      ∀ before l after, ls = before ++ l :: after →
        (∀ m ∈ before, ¬ prompt <+: m) → prompt <+: l →
          (expectFooter = true ∧ footerMark ∈ before ∧
            footerStats U P (before ++ l :: after) = footerStats U P before) ∧
          prompt <+: p := by
  have htake : ∀ {before after : List Text} {l : Text}, (∀ m ∈ before, ¬ prompt <+: m) →
      prompt <+: l →
      (before ++ l :: after).takeWhile (fun l => !prompt.isPrefixOf l) = before := by
    intro before after l hbefore hl
    have hneg : ¬ (!prompt.isPrefixOf l) = true := fun h => not_prompt_eq_true.mp h hl
    rw [List.takeWhile_append_of_pos fun m hm => not_prompt_eq_true.mpr (hbefore m hm)]
    simp [hneg]
  constructor
  · rintro h before l after rfl hbefore hl
    rcases h with hwhole | ⟨hfooter, hmark, hstats, hlast⟩
    · rw [htake hbefore hl] at hwhole
      exact absurd (List.append_right_eq_self.mp hwhole.symm) (by simp)
    · rw [htake hbefore hl] at hmark hstats
      exact ⟨⟨hfooter, hmark, hstats⟩, hlast⟩
  · intro h
    by_cases hplain : ∀ l ∈ ls, ¬ prompt <+: l
    · left
      exact List.takeWhile_eq_self_iff.mpr fun l hl => not_prompt_eq_true.mpr (hplain l hl)
    · right
      obtain ⟨before, l, after, rfl, hbefore, hl⟩ := first_prompt hplain
      obtain ⟨⟨hfooter, hmark, hstats⟩, hlast⟩ := h before l after rfl hbefore hl
      rw [htake hbefore hl]
      exact ⟨hfooter, hmark, hstats, hlast⟩

/-- Lines that leave the prompt alone are calm. -/
theorem PromptHarmless.calm {expectFooter : Bool} {ls : List Text} {p : Text}
    (h : PromptHarmless U P expectFooter ls p) (hok : ¬ FooterRaises U P expectFooter ls) :
    CalmLines U P (streaming expectFooter) ls p := by
  by_cases hplain : ∀ l ∈ ls, ¬ prompt <+: l
  · exact calmLines_plain _ hplain
  · obtain ⟨before, l, after, rfl, hbefore, hl⟩ := first_prompt hplain
    obtain ⟨hsilent, hlast⟩ := promptHarmless_iff.mp h before l after rfl hbefore hl
    have hok' : ¬ FooterRaises U P expectFooter before := fun hr => hok (hr.append _).1
    exact calmLines_append _ hbefore
      (calmLines_silent hlast _ ((lineEvents_silent_iff hl hok').mpr hsilent))

/-- Up to the footer that raises, a harmless stream has no prompt. -/
theorem RaiseHarmless.calm {ls : List Text} (h : RaiseHarmless U ls)
    (hraises : FooterRaises U P true ls) (p : Text) :
    CalmLines U P (streaming true) ls p := by
  refine calmLines_reached _ fun before l after heq hok hp => ?_
  have hnotlog : isLogLine U l = false := by
    obtain ⟨r, rfl⟩ := hp
    exact not_isLogLine U (c := 't') (by decide) _
  by_cases hmark : footerMark ∈ before
  · -- a line of the footer
    obtain ⟨a, b, rfl, ha⟩ := List.eq_append_cons_of_mem hmark
    have hlines : ∀ b, footerLines U (a ++ footerMark :: b) =
        (b.filter fun l => !isLogLine U l).take 2 := by
      intro b
      rw [footerLines, List.dropWhile_append_of_pos (ne_footerMark ha)]
      simp
    have hshort : (b.filter fun l => !isLogLine U l).length < 2 := by
      by_contra hlong
      have hlen : (footerLines U (a ++ footerMark :: b)).length = 2 := by
        rw [hlines, List.length_take]
        omega
      obtain ⟨-, -, e, hstats⟩ := hraises
      refine raised_iff.mp hok ⟨rfl, hmark, e, ?_⟩
      rw [footerStats, heq, footerLines_append hmark hlen] at hstats
      exact hstats
    refine h.2 l ?_ hp
    rw [heq, List.append_assoc, List.cons_append, hlines, List.filter_append,
      List.filter_cons_of_pos (by simp [hnotlog]), List.mem_take_iff_getElem]
    refine ⟨(b.filter fun l => !isLogLine U l).length, ?_, ?_⟩
    · simp
      omega
    · simp
  · by_cases hl : l = footerMark
    · rw [hl] at hp
      exact absurd hp (by decide)
    · -- a line before the footer mark
      have hne := ne_footerMark hmark
      have hmem : l ∈ ls.takeWhile (· != footerMark) := by
        rw [heq, List.takeWhile_append_of_pos hne, List.takeWhile_cons_of_pos (by simpa using hl)]
        simp
      rw [h.1 l hmem] at hnotlog
      cases hnotlog

/-- A harmless stream is calm. -/
theorem CutHarmless.calm {expectFooter : Bool} {echo s : Text}
    (h : CutHarmless U P expectFooter echo s) :
    Calm U P (ShellFramer.new expectFooter echo) (lines (cleaned s)).1 (lines (cleaned s)).2 := by
  refine calm_new fun ls hls => ?_
  rcases h ls hls with ⟨hraises, hharmless⟩ | ⟨hok, hharmless⟩
  · obtain rfl := hraises.1
    exact hharmless.calm hraises _
  · exact hharmless.calm hok

theorem textEvents_raised {s : LineState} {ls : List Text} {p : Text} :
    (textEvents U P s ls p).raised = (lineEvents U P s ls).raised := by
  rw [textEvents_eq]
  cases h : (lineEvents U P s ls).raised <;> rfl

theorem textEvents_of_ok {s : LineState} {ls : List Text} {p : Text}
    (h : (lineEvents U P s ls).raised = none) : textEvents U P s ls p =
      ⟨(lineEvents U P s ls).events ++ lastEvents U (behindLines U P s ls) p, none⟩ := by
  rw [textEvents_eq, h]

theorem streamEvents_behind (expectFooter : Bool) {echo s p : Text} {ls' ls : List Text}
    (hlined : Lined (cleaned s) ls' p) (h : behindEcho echo [] ls' = some ls) :
    streamEvents U P expectFooter echo s = textEvents U P (streaming expectFooter) ls p := by
  obtain ⟨hls, hp⟩ := (lined_lines (cleaned s)).unique hlined
  unfold streamEvents due
  rw [if_pos (show (ShellFramer.new expectFooter echo).state = .echo from rfl), hls, hp]
  have hecho : behindEcho (ShellFramer.new expectFooter echo).echoExpect
      (ShellFramer.new expectFooter echo).echoSeen ls' = some ls := h
  rw [hecho]
  rfl

end prompt

end TinyLlm
