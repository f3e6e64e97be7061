/-
# `TinyLlm.Chat.Prompt` — any two cuts of a stream

Any two runs over a stream come to the same just when the stream is harmless
(`feeds_alike_iff`).  One direction is the run lemma over calm streams.  For
the other the stream is compared whole (`feeds_whole`) and cut: behind the
prompt (`feeds_cut`), where the lines from there on must come to nothing
(`silent_of_alike`), or in front of the footer (`feeds_front`), where the lines
before must.
-/
import TinyLlm.Chat.Footer

namespace TinyLlm

open Event (texts controls)

section prompt

variable {F : Type*} {U : PyUnicode} {P : PyFloat F}

/-! ## Where a stream may be cut -/

/-- The echo is a number of lines, whatever follows them. -/
theorem behindEcho_split {echo : Text} : ∀ {ls' ls seen : _}, behindEcho echo seen ls' = some ls →
    ∃ e, ls' = e ++ ls ∧ ∀ more, behindEcho echo seen (e ++ more) = some more := by
  intro ls'
  induction ls' with
  | nil => intro ls seen h; cases h
  | cons l ls' ih =>
      intro ls seen h
      rw [behindEcho] at h
      split at h
      · next hwrap =>
          obtain ⟨e, rfl, he⟩ := ih h
          refine ⟨l :: e, rfl, fun more => ?_⟩
          rw [List.cons_append, behindEcho, if_pos hwrap]
          exact he more
      · next hwrap =>
          obtain rfl := Option.some.inj h
          refine ⟨[l], rfl, fun more => ?_⟩
          rw [List.singleton_append, behindEcho, if_neg hwrap]

/-- A character lets nothing go, what was withheld, or that and itself. -/
theorem scanChar_out (h : Held) (c : Char) :
    (h.scanChar c).1 = [] ∨ (h.scanChar c).1 = h.text ∨ (h.scanChar c).1 = h.text ++ [c] := by
  unfold Held.scanChar
  split
  · exact .inl rfl
  · split
    · exact .inr (.inl rfl)
    · exact .inr (.inr rfl)

theorem noCr_singleton {c : Char} (h : (c != '\r') = true) : noCr [c] = [c] := by
  simp [noCr, h]

/-- The one place of a character at the end of a text. -/
theorem append_last {c : Char} {a X Y : Text} (ha : c ∉ a) (h : a ++ [c] = X ++ c :: Y) :
    a = X := by
  rcases List.append_eq_append_iff.mp h with ⟨X', rfl, hX'⟩ | ⟨a', rfl, ha'⟩
  · cases X' with
    | nil => simp
    | cons d X' => simp at hX'
  · cases a' with
    | nil => simp
    | cons d a' =>
        obtain ⟨rfl, -⟩ := List.cons.inj ha'
        simp at ha

/-- The stream may be cut behind a character that is no part of a control
sequence. -/
theorem exists_cut {c : Char} (hc : ∀ h : Held, c ∉ h.text) : ∀ (s : Text) {h : Held}
    {X Y : Text}, noCr (h.scan s).1 = X ++ c :: Y →
      ∃ s₁ s₂, s = s₁ ++ s₂ ∧ noCr (h.scan s₁).1 = X ++ [c] := by
  intro s
  induction s with
  | nil =>
      intro h X Y heq
      simp [noCr] at heq
  | cons d s ih =>
      intro h X Y heq
      rw [Held.scan_cons, noCr_append] at heq
      rcases List.append_eq_append_iff.mp heq with ⟨X', rfl, hX'⟩ | ⟨Y', hY', hrest⟩
      · obtain ⟨s₁, s₂, rfl, hs₁⟩ := ih hX'
        refine ⟨d :: s₁, s₂, rfl, ?_⟩
        rw [Held.scan_cons, noCr_append, hs₁, List.append_assoc]
      · cases Y' with
        | nil =>
            obtain ⟨s₁, s₂, rfl, hs₁⟩ := ih (X := []) hrest.symm
            refine ⟨d :: s₁, s₂, rfl, ?_⟩
            rw [Held.scan_cons, noCr_append, hs₁, hY', List.append_nil]
            rfl
        | cons c' Y' =>
            obtain ⟨rfl, -⟩ := List.cons.inj hrest
            refine ⟨[d], s, rfl, ?_⟩
            rw [Held.scan_cons, Held.scan_nil, List.append_nil]
            have hmem : c ∈ noCr (h.scanChar d).1 := by
              rw [hY']
              simp
            have hnot : c ∉ noCr h.text := fun hm => hc h (List.mem_filter.mp hm).1
            rcases scanChar_out h d with hout | hout | hout
            · rw [hout] at hmem
              cases hmem
            · rw [hout] at hmem
              exact absurd hmem hnot
            · rw [hout, noCr_append] at hmem hY' ⊢
              obtain hd | hd := List.mem_append.mp hmem
              · exact absurd hd hnot
              · obtain ⟨hd, hne⟩ := List.mem_filter.mp hd
                obtain rfl := List.mem_singleton.mp hd
                rw [noCr_singleton hne] at hY' ⊢
                rw [append_last hnot hY']

theorem space_notMem_text (h : Held) : ' ' ∉ h.text := by
  cases h with
  | clear => simp
  | escape => decide
  | params ps all =>
      intro hm
      rcases List.mem_cons.mp hm with hm | hm
      · exact absurd hm (by decide)
      · rcases List.mem_cons.mp hm with hm | hm
        · exact absurd hm (by decide)
        · exact absurd (all _ hm) (by decide)

/-- A piece may end behind the prompt, wherever it stands. -/
theorem exists_cut_prompt {s : Text} {ls after : List Text} {l p : Text}
    (hlined : Lined (cleaned s) (ls ++ l :: after) p) (hl : prompt <+: l) :
    ∃ s₁ s₂, s = s₁ ++ s₂ ∧ Lined (cleaned s₁) ls prompt := by
  obtain ⟨r, rfl⟩ := hl
  have hprompt : prompt = "tinyllm>".toList ++ [' '] := rfl
  have htext : noCr (Held.clear.scan s).1 =
      (unlines ls ++ "tinyllm>".toList) ++ ' ' :: (r ++ '\n' :: (unlines after ++ p)) := by
    rw [← cleaned_eq, hlined.text, unlines_append, unlines_cons, hprompt]
    simp
  obtain ⟨s₁, s₂, rfl, hs₁⟩ := exists_cut space_notMem_text s htext
  refine ⟨s₁, s₂, rfl, ?_, fun m hm => hlined.finished m (List.mem_append_left _ hm), by decide⟩
  rw [cleaned_eq, hs₁, List.append_assoc, ← hprompt]

theorem upToDone_of_mem {a : List (Event F)} (h : .done ∈ a) (b : List (Event F)) :
    Event.upToDone (a ++ b) = Event.upToDone a := by
  obtain ⟨u, v, rfl, hu⟩ := List.eq_append_cons_of_mem h
  rw [List.append_assoc, Event.upToDone_append hu, Event.upToDone_append hu]
  rfl

/-- A piece may end behind a finished line. -/
theorem exists_cut_line {s : Text} {ls after : List Text} {p : Text} (hne : ls ≠ [])
    (hlined : Lined (cleaned s) (ls ++ after) p) :
    ∃ s₁ s₂, s = s₁ ++ s₂ ∧ Lined (cleaned s₁) ls [] := by
  have hnewline : ∀ h : Held, '\n' ∉ h.text := by
    intro h
    cases h with
    | clear => simp
    | escape => decide
    | params ps all =>
        intro hm
        rcases List.mem_cons.mp hm with hm | hm
        · exact absurd hm (by decide)
        · rcases List.mem_cons.mp hm with hm | hm
          · exact absurd hm (by decide)
          · exact absurd (all _ hm) (by decide)
  obtain ⟨init, l, rfl⟩ := List.eq_nil_or_concat ls |>.resolve_left hne
  rw [List.concat_eq_append] at hlined ⊢
  have htext : noCr (Held.clear.scan s).1 =
      (unlines init ++ l) ++ '\n' :: (unlines after ++ p) := by
    rw [← cleaned_eq, hlined.text, unlines_append, unlines_append]
    simp
  obtain ⟨s₁, s₂, rfl, hs₁⟩ := exists_cut hnewline s htext
  refine ⟨s₁, s₂, rfl, ?_, fun m hm => hlined.finished m (List.mem_append_left _ hm), by simp⟩
  rw [cleaned_eq, hs₁, unlines_append]
  simp

/-- What a run comes to up to its end, when nothing is raised. -/
theorem Comes.upToDone {c run : Course F} (h : Comes c run) (hok : c.raised = none) :
    Event.Same c.events (Event.upToDone run.events) := by
  rcases h with ⟨hsame, -, hdone⟩ | ⟨a, b, heq, ha, hsame⟩ | ⟨e, lost, -, -, hsame⟩
  · rw [Event.upToDone_of_notMem hdone]
    exact hsame.1
  · rw [heq, Event.upToDone_append ha]
    exact hsame.1
  · have hraised := hsame.2
    rw [hok] at hraised
    cases hraised

/-- What raises ends with it. -/
theorem Comes.raised {c run : Course F} (h : Comes c run) {e : PyError} (he : c.raised = some e) :
    run.raised = some e ∧ .done ∉ run.events ∧
      ∃ lost, Event.Same c.events (run.events ++ lost) := by
  rcases h with ⟨hsame, hok, -⟩ | ⟨a, b, -, -, hsame⟩ | ⟨e', lost, hraised, hdone, hsame⟩
  · have hraised := hsame.2
    rw [he, hok] at hraised
    cases hraised
  · have hraised := hsame.2
    rw [he] at hraised
    cases hraised
  · obtain rfl := Option.some.inj (he.symm.trans hsame.2)
    exact ⟨hraised, fun hm => hdone (List.mem_append_left _ hm), lost, hsame.1⟩

/-- A second piece adds to the events of the first. -/
theorem feeds_two (fr : ShellFramer) (s₁ s₂ : Text) : ∃ more,
    (fr.feeds U P [s₁, s₂]).2.events = (fr.feeds U P [s₁]).2.events ++ more := by
  rcases hfeed : fr.feed U P s₁ with ⟨fr', e | evs⟩
  · rw [feeds_error hfeed, feeds_error hfeed]
    exact ⟨[], rfl⟩
  · rw [feeds_ok U P hfeed, feeds_ok U P hfeed]
    exact ⟨(fr'.feeds U P [s₂]).2.events, by simp [Course.behind, ShellFramer.feeds]⟩

/-- The events of a piece that raises are lost. -/
theorem feeds_one_raised {fr : ShellFramer} {s : Text} {e : PyError}
    (h : (fr.feeds U P [s]).2.raised = some e) : (fr.feeds U P [s]).2.events = [] := by
  rcases hfeed : fr.feed U P s with ⟨fr', e | evs⟩
  · rw [feeds_error hfeed]
  · rw [feeds_ok U P hfeed] at h
    cases h

/-- Where the prompt comes at the end of a piece, the run ends there. -/
theorem feeds_cut (expectFooter : Bool) {echo s₁ : Text} {e before : List Text}
    (hlined : Lined (cleaned s₁) (e ++ before) prompt)
    (hbehind : behindEcho echo [] (e ++ before) = some before)
    (hok : ¬ FooterRaises U P expectFooter before) (s₂ : Text) :
    Event.Same ((lineEvents U P (streaming expectFooter) before).events ++ [.done])
      (Event.upToDone ((ShellFramer.new expectFooter echo).feeds U P [s₁, s₂]).2.events) := by
  have hfront : (behindLines U P (streaming expectFooter) before).lineIsText = false := by
    cases before with
    | nil => rfl
    | cons l before => exact behindLines_lineIsText _ _ _
  have hlast : (lastEvents U (behindLines U P (streaming expectFooter) before) prompt :
      List (Event F)) = [.done] := by
    rw [lastEvents, if_pos ⟨hfront, by decide⟩]
  have hcomes := feeds_whole (U := U) (P := P) expectFooter echo s₁
  rw [streamEvents_behind expectFooter hlined hbehind,
    textEvents_of_ok (raised_iff.mpr hok), hlast] at hcomes
  have hsame := hcomes.upToDone rfl
  have hdone : .done ∈ ((ShellFramer.new expectFooter echo).feeds U P [s₁]).2.events := by
    rw [← Event.done_mem_upToDone, ← Event.done_mem_controls, ← hsame.2, Event.done_mem_controls]
    simp
  obtain ⟨more, hmore⟩ := feeds_two (U := U) (P := P) (ShellFramer.new expectFooter echo) s₁ s₂
  rw [hmore, upToDone_of_mem hdone]
  exact hsame

/-- Where a piece ends in front of the footer, the lines before it are out. -/
theorem feeds_front (expectFooter : Bool) {echo s₁ : Text} {e before : List Text}
    (hlined : Lined (cleaned s₁) (e ++ before) [])
    (hbehind : behindEcho echo [] (e ++ before) = some before)
    (hok : ¬ FooterRaises U P expectFooter before) (s₂ : Text) : ∃ more,
    Event.Same ((lineEvents U P (streaming expectFooter) before).events ++ more)
      (Event.upToDone ((ShellFramer.new expectFooter echo).feeds U P [s₁, s₂]).2.events) := by
  have hlast : (lastEvents U (behindLines U P (streaming expectFooter) before) [] :
      List (Event F)) = [] := lastEvents_idle (by rintro ⟨-, h⟩; cases h) (by simp)
  have hcomes := feeds_whole (U := U) (P := P) expectFooter echo s₁
  rw [streamEvents_behind expectFooter hlined hbehind,
    textEvents_of_ok (raised_iff.mpr hok), hlast, List.append_nil] at hcomes
  have hsame := hcomes.upToDone rfl
  have hdone : .done ∉ ((ShellFramer.new expectFooter echo).feeds U P [s₁]).2.events := by
    rw [← Event.done_mem_upToDone, ← Event.done_mem_controls, ← hsame.2, Event.done_mem_controls]
    exact done_notMem_lineEvents _ _
  obtain ⟨more, hmore⟩ := feeds_two (U := U) (P := P) (ShellFramer.new expectFooter echo) s₁ s₂
  rw [Event.upToDone_of_notMem hdone] at hsame
  rw [hmore, Event.upToDone_append hdone]
  refine ⟨Event.upToDone more, ?_⟩
  simp [Event.Same, hsame.1, hsame.2]

/-- The lines in front of the prompt come to as much as the whole stream only
when the lines behind come to nothing and the prompt follows them. -/
theorem silent_of_alike {s : LineState} {before ls : List Text} {p : Text}
    (hok : (lineEvents U P s before).raised = none)
    (hok' : (lineEvents U P s (before ++ ls)).raised = none)
    (htexts : texts ((lineEvents U P s before).events ++ [.done]) =
      texts (textEvents U P s (before ++ ls) p).events)
    (herrors : Event.errors ((lineEvents U P s before).events ++ [.done]) =
      Event.errors (textEvents U P s (before ++ ls) p).events)
    (hstats : Event.statistics ((lineEvents U P s before).events ++ [.done]) =
      Event.statistics (textEvents U P s (before ++ ls) p).events)
    (hdone : (.done ∈ (lineEvents U P s before).events ++ [.done]) ↔
      .done ∈ (textEvents U P s (before ++ ls) p).events) :
    lineEvents U P (behindLines U P s before) ls = ⟨[], none⟩ ∧ prompt <+: p := by
  have hevents := textEvents_of_ok (p := p) hok'
  rw [hevents] at htexts herrors hstats hdone
  have hmem := hdone.mp (by simp)
  have hlast : .done ∈ (lastEvents U (behindLines U P s (before ++ ls)) p : List (Event F)) :=
    (List.mem_append.mp hmem).resolve_left (done_notMem_lineEvents _ _)
  have hp : prompt <+: p := by
    unfold lastEvents at hlast
    split at hlast
    · next h => exact List.isPrefixOf_iff_prefix.mp h.2
    · split at hlast
      · simp at hlast
      · cases hlast
  refine ⟨?_, hp⟩
  rw [lineEvents_append hok] at htexts herrors hstats hok'
  simp only [Course.behind, Event.texts_append, Event.errors_append, Event.statistics_append,
    List.append_assoc, List.append_cancel_left_eq] at htexts herrors hstats hok'
  exact congrArg₂ Course.mk (lineEvents_eq_nil (List.append_eq_nil_iff.mp htexts.symm).1
    (List.append_eq_nil_iff.mp herrors.symm).1 (List.append_eq_nil_iff.mp hstats.symm).1) hok'

/-- Lines before the footer mark that come to nothing are log lines. -/
theorem log_of_silent {expectFooter : Bool} {ls : List Text} (hmark : footerMark ∉ ls)
    (h : (lineEvents U P (streaming expectFooter) ls).events = []) :
    ∀ l ∈ ls, isLogLine U l = true := by
  induction ls with
  | nil => simp
  | cons l ls ih =>
      obtain ⟨hl, hls⟩ := List.ne_and_not_mem_of_not_mem_cons hmark
      have hline := @completeLine_streaming F U P expectFooter l fun hm => hl hm.2.symm
      rw [lineEvents_ok hline, Course.behind] at h
      obtain ⟨hnil, hrest⟩ := List.append_eq_nil_iff.mp h
      refine List.forall_mem_cons.mpr ⟨?_, ih hls hrest⟩
      by_contra hlog
      rw [if_neg hlog] at hnil
      split at hnil <;> cases hnil

/-- Log lines come to nothing. -/
theorem silent_of_log {expectFooter : Bool} {ls : List Text}
    (h : ∀ l ∈ ls, isLogLine U l = true) :
    (lineEvents U P (streaming expectFooter) ls).events = [] := by
  induction ls with
  | nil => rfl
  | cons l ls ih =>
      obtain ⟨hl, hls⟩ := List.forall_mem_cons.mp h
      rw [lineEvents_ok (completeLine_log U P rfl hl)]
      exact ih hls

end prompt

/-! ## Any two cuts -/

section alike

variable {F : Type*} {U : PyUnicode} {P : PyFloat F}

/-- Where the footer raises, a harmless stream comes to no event. -/
theorem RaiseHarmless.events {ls : List Text} (h : RaiseHarmless U ls)
    (hraises : FooterRaises U P true ls) (p : Text) :
    (textEvents U P (streaming true) ls p).events = [] ∧
      ∃ e, (textEvents U P (streaming true) ls p).raised = some e := by
  obtain ⟨-, hmem, e, hstats⟩ := id hraises
  have hcourse : lineEvents U P (streaming true) ls = ⟨[], some e⟩ := by
    rw [lineEvents_mark hmem, silent_of_log h.1, hstats]
    rfl
  rw [textEvents_eq, hcourse]
  exact ⟨rfl, e, rfl⟩

/-- Events of which nothing is text and nothing else. -/
theorem silent_of_same {evs lost : List (Event F)} (h : Event.Same [] (evs ++ lost)) :
    Event.Same [] evs := by
  obtain ⟨htexts, hcontrols⟩ := h
  rw [Event.texts_append] at htexts
  rw [Event.controls_append] at hcontrols
  exact ⟨(List.append_eq_nil_iff.mp htexts.symm).1.symm,
    (List.append_eq_nil_iff.mp hcontrols.symm).1.symm⟩

/-- Over a harmless stream all runs come to one list of events. -/
theorem CutHarmless.same {expectFooter : Bool} {echo s : Text}
    (h : CutHarmless U P expectFooter echo s) : ∃ es : List (Event F), ∀ chunks : List Text,
      chunks.flatten = s → Event.Same es
        (Event.upToDone ((ShellFramer.new expectFooter echo).feeds U P chunks).2.events) := by
  have hcomes : ∀ chunks : List Text, chunks.flatten = s → Comes
      (streamEvents U P expectFooter echo s)
      ((ShellFramer.new expectFooter echo).feeds U P chunks).2 :=
    fun _ hchunks => feeds_calm h.calm hchunks
  cases hbehind : behindEcho echo [] (lines (cleaned s)).1 with
  | none =>
      have hstream : streamEvents U P expectFooter echo s = ⟨[], none⟩ := by
        unfold streamEvents due
        rw [if_pos (show (ShellFramer.new expectFooter echo).state = .echo from rfl)]
        have hecho : behindEcho (ShellFramer.new expectFooter echo).echoExpect
            (ShellFramer.new expectFooter echo).echoSeen (lines (cleaned s)).1 = none := hbehind
        rw [hecho]
      exact ⟨_, fun chunks hchunks => (hcomes chunks hchunks).upToDone (by rw [hstream])⟩
  | some ls =>
      have hstream := streamEvents_behind (U := U) (P := P) expectFooter
        (lined_lines (cleaned s)) hbehind
      rcases h ls hbehind with ⟨hraises, hharmless⟩ | ⟨hok, -⟩
      · obtain rfl := hraises.1
        obtain ⟨hevents, e, hraised⟩ := hharmless.events hraises (lines (cleaned s)).2
        refine ⟨[], fun chunks hchunks => ?_⟩
        obtain ⟨-, hdone, lost, hsame⟩ :=
          (hcomes chunks hchunks).raised (by rw [hstream]; exact hraised)
        rw [hstream, hevents] at hsame
        rw [Event.upToDone_of_notMem hdone]
        exact silent_of_same hsame
      · refine ⟨_, fun chunks hchunks => (hcomes chunks hchunks).upToDone ?_⟩
        rw [hstream, textEvents_raised, raised_iff]
        exact hok

variable (U P) in
/-- All runs over a stream come to the same, up to the first `done`. -/
def CutAlike (expectFooter : Bool) (echo s : Text) : Prop :=
  ∀ chunks chunks' : List Text, chunks.flatten = s → chunks'.flatten = s →
    Event.Alike ((ShellFramer.new expectFooter echo).feeds U P chunks).2.events
      ((ShellFramer.new expectFooter echo).feeds U P chunks').2.events

section needed

variable {expectFooter : Bool} {echo s : Text} {ls e : List Text}

/-- Where the footer raises, the whole stream comes to nothing, and so every
run does. -/
theorem CutAlike.silent (h : CutAlike U P expectFooter echo s)
    (hbehind : behindEcho echo [] (lines (cleaned s)).1 = some ls)
    (hraises : FooterRaises U P expectFooter ls) {chunks : List Text}
    (hchunks : chunks.flatten = s) :
    Event.Alike ((ShellFramer.new expectFooter echo).feeds U P chunks).2.events [] := by
  have hcomes := feeds_whole (U := U) (P := P) expectFooter echo s
  rw [streamEvents_behind expectFooter (lined_lines (cleaned s)) hbehind] at hcomes
  obtain ⟨e, he⟩ : ∃ e, (textEvents U P (streaming expectFooter) ls (lines (cleaned s)).2).raised =
      some e := by
    rw [← Option.isSome_iff_exists, ← Option.ne_none_iff_isSome, textEvents_raised, Ne, raised_iff,
      not_not]
    exact hraises
  have hnil := feeds_one_raised (hcomes.raised he).1
  rw [← hnil]
  exact h chunks [s] hchunks (by simp)

theorem CutAlike.raiseHarmless (h : CutAlike U P expectFooter echo s)
    (hbehind : behindEcho echo [] (lines (cleaned s)).1 = some ls)
    (hraises : FooterRaises U P expectFooter ls) : RaiseHarmless U ls := by
  obtain ⟨e, he, hecho⟩ := behindEcho_split hbehind
  have hlined := lined_lines (cleaned s)
  rw [he] at hlined
  constructor
  · -- cut in front of the footer mark
    have hsplit : ls = ls.takeWhile (· != footerMark) ++ ls.dropWhile (· != footerMark) :=
      List.takeWhile_append_dropWhile.symm
    have hmark : footerMark ∉ ls.takeWhile (· != footerMark) := by
      intro hm
      simpa using List.mem_takeWhile_imp hm
    rw [hsplit, ← List.append_assoc] at hlined
    have hne : e ++ ls.takeWhile (· != footerMark) ≠ [] := by
      intro hnil
      have hnone := hecho (ls.takeWhile (· != footerMark))
      rw [hnil] at hnone
      cases hnone
    obtain ⟨s₁, s₂, rfl, hlined₁⟩ := exists_cut_line hne hlined
    have hok : ¬ FooterRaises U P expectFooter (ls.takeWhile (· != footerMark)) :=
      fun hr => hmark hr.2.1
    obtain ⟨more, hsame⟩ := feeds_front (U := U) (P := P) expectFooter hlined₁ (hecho _) hok s₂
    have halike := h.silent hbehind hraises (show [s₁, s₂].flatten = s₁ ++ s₂ by simp)
    obtain ⟨htexts, herrors, hstats, -⟩ :=
      (Event.alike_iff hsame (Event.Same.refl (Event.upToDone []))).mp halike
    rw [Event.texts_append] at htexts
    rw [Event.errors_append] at herrors
    rw [Event.statistics_append] at hstats
    exact log_of_silent hmark (lineEvents_eq_nil (List.append_eq_nil_iff.mp htexts).1
      (List.append_eq_nil_iff.mp herrors).1 (List.append_eq_nil_iff.mp hstats).1)
  · -- cut behind the prompt
    intro l hl hp
    have hmem := mem_of_footerLines hl
    obtain ⟨before, m, after, rfl, hbefore, hm⟩ :=
      first_prompt fun hall => hall l hmem hp
    rw [← List.append_assoc] at hlined
    obtain ⟨s₁, s₂, rfl, hlined₁⟩ := exists_cut_prompt hlined hm
    have hok : ¬ FooterRaises U P expectFooter before := by
      intro hr
      rw [(hr.append (m :: after)).2] at hl
      exact hbefore l (mem_of_footerLines hl) hp
    have hcut := feeds_cut (U := U) (P := P) expectFooter hlined₁ (hecho before) hok s₂
    have halike := h.silent hbehind hraises (show [s₁, s₂].flatten = s₁ ++ s₂ by simp)
    have hdone := ((Event.alike_iff hcut (Event.Same.refl (Event.upToDone []))).mp halike).2.2.2.mp
      (by simp)
    cases hdone

theorem CutAlike.promptHarmless (h : CutAlike U P expectFooter echo s)
    (hbehind : behindEcho echo [] (lines (cleaned s)).1 = some ls)
    (hok : ¬ FooterRaises U P expectFooter ls) :
    PromptHarmless U P expectFooter ls (lines (cleaned s)).2 := by
  refine promptHarmless_iff.mpr ?_
  rintro before l after rfl hbefore hl
  obtain ⟨e, he, hecho⟩ := behindEcho_split hbehind
  have hlined := lined_lines (cleaned s)
  have hwhole := streamEvents_behind (U := U) (P := P) expectFooter hlined hbehind
  rw [he, ← List.append_assoc] at hlined
  obtain ⟨s₁, s₂, rfl, hlined₁⟩ := exists_cut_prompt hlined hl
  have hok' : ¬ FooterRaises U P expectFooter before := fun hr => hok (hr.append _).1
  have hcut := feeds_cut (U := U) (P := P) expectFooter hlined₁ (hecho before) hok' s₂
  have hcomes := feeds_whole (U := U) (P := P) expectFooter echo (s₁ ++ s₂)
  rw [hwhole] at hcomes
  have hone := hcomes.upToDone (by rw [textEvents_raised, raised_iff]; exact hok)
  obtain ⟨htexts, herrors, hstats, hdone⟩ :=
    (Event.alike_iff hcut hone).mp (h [s₁, s₂] [s₁ ++ s₂] (by simp) (by simp))
  obtain ⟨hsilent, hlast⟩ := silent_of_alike (raised_iff.mpr hok') (raised_iff.mpr hok) htexts
    herrors hstats hdone
  exact ⟨(lineEvents_silent_iff hl hok').mp hsilent, hlast⟩

end needed

variable (U P) in
/-- **Any two cuts.**  All runs over a stream come to the same, up to the first
`done`, just when neither the prompt nor a refused number in the footer makes
the cut matter. -/
theorem feeds_alike_iff (expectFooter : Bool) (echo s : Text) :
    (∀ chunks chunks' : List Text, chunks.flatten = s → chunks'.flatten = s →
      Event.Alike ((ShellFramer.new expectFooter echo).feeds U P chunks).2.events
        ((ShellFramer.new expectFooter echo).feeds U P chunks').2.events) ↔
      CutHarmless U P expectFooter echo s := by
  constructor
  · intro (h : CutAlike U P expectFooter echo s) ls hls
    by_cases hraises : FooterRaises U P expectFooter ls
    · exact .inl ⟨hraises, h.raiseHarmless hls hraises⟩
    · exact .inr ⟨hraises, h.promptHarmless hls hraises⟩
  · intro h chunks chunks' hchunks hchunks'
    obtain ⟨es, hsame⟩ := h.same
    exact (Event.alike_iff (hsame chunks hchunks) (hsame chunks' hchunks')).mpr
      ⟨rfl, rfl, rfl, Iff.rfl⟩

/-- A model that writes the prompt and more behind it: the stream whole, and in
two pieces. -/
theorem feeds_alike_prompt : ¬ ∀ (expectFooter : Bool) (echo s : Text) (chunks chunks' : List Text),
    chunks.flatten = s → chunks'.flatten = s →
      Event.Alike ((ShellFramer.new expectFooter echo).feeds asciiOnly exactFloat chunks).2.events
        ((ShellFramer.new expectFooter echo).feeds asciiOnly exactFloat chunks').2.events := by
  intro h
  have halike := h true "tinyllm gen Hi".toList
    "tinyllm gen Hi\r\ntinyllm> is a shell\r\n".toList
    ["tinyllm gen Hi\r\ntinyllm> is a shell\r\n".toList]
    ["tinyllm gen Hi\r\ntinyllm> ".toList, "is a shell\r\n".toList] (by decide) (by decide)
  exact absurd halike.done (by decide +kernel)

end alike

end TinyLlm
