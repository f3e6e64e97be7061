/-
# `TinyLlm.Chat.Session` — a whole command, from the echo to the prompt

The transcript of a `tinyllm gen` command: the echoed command line, the text
the model wrote, the footer mark, two lines of statistics and the prompt, with
log lines between the lines and control sequences anywhere (`Transcript`).
Whatever pieces it comes in, the framer puts out the text, the statistics and
the end (`shellFramer_transcript`).
-/
import TinyLlm.Chat.Framer

namespace TinyLlm

open Event (texts controls)

/-! ## Transcripts -/

/-- `\n` or `\r\n`. -/
inductive LineEnd where
  | lf
  | crlf

def LineEnd.text : LineEnd → Text
  | lf => ['\n']
  | crlf => ['\r', '\n']

/-- The text of lines with their ends. -/
def endLines (ls : List (Text × LineEnd)) : Text := ls.flatMap fun l => l.1 ++ l.2.text

/-- `WithCsi s t`: `t` is `s` with complete control sequences put in anywhere,
the sequences being those of `ANSI_RE`. -/
inductive WithCsi : Text → Text → Prop
  | nil : WithCsi [] []
  | keep {s t : Text} (c : Char) : WithCsi s t → WithCsi (c :: s) (c :: t)
  | csi {s t : Text} (ps : Text) (f : Char) : (∀ c ∈ ps, csiParam c = true) →
      csiFinal f = true → WithCsi s t → WithCsi s (esc :: '[' :: ps ++ f :: t)

/-- A line in which nothing is for the terminal. -/
structure CleanLine (l : Text) : Prop where
  noNewline : '\n' ∉ l
  noReturn : '\r' ∉ l
  noEsc : esc ∉ l

section output

variable (U : PyUnicode)

/-- A text the framer can tell from what surrounds it. -/
structure OutputText (T : Text) : Prop where
  noEsc : esc ∉ T
  noReturn : '\r' ∉ T
  noMark : ∀ l ∈ T.splitOn '\n', l ≠ footerMark
  noError : ∀ l ∈ T.splitOn '\n', ¬ ∃ e ∈ errorPrefixes, e <+: l
  noLog : ∀ l ∈ T.splitOn '\n', isLogLine U l = false
  noPrompt : ∀ l ∈ T.splitOn '\n', ¬ prompt <+: l

/-- The lines of a run's output: the text, a newline, the footer mark and the
statistics. -/
def outputLines (T : Text) (g : GenRun) : List Text :=
  T.splitOn '\n' ++ [footerMark, g.tokenLine, g.byteLine]

/-- What the terminal receives after the echo: the output's lines among log
lines, each with its end, then the prompt, with control sequences anywhere. -/
structure Transcript (T : Text) (g : GenRun) (stream : Text) where
  lines : List (Text × LineEnd)
  output : (lines.map Prod.fst).filter (fun l => !isLogLine U l) = outputLines T g
  logs : ∀ l ∈ lines, isLogLine U l.1 = true → CleanLine l.1
  woven : WithCsi (endLines lines ++ prompt) stream

end output

/-- A command line: one line, of which the terminal filter does not leave just
a beginning. -/
structure CommandLine (cmd : Text) : Prop where
  oneLine : '\n' ∉ cmd
  echoed : ¬ (noCr (ansiRe.erase cmd) <+: cmd ∧ (noCr (ansiRe.erase cmd)).length < cmd.length)

/-! ## Cleaning a transcript -/

/-- Control sequences leave no trace. -/
theorem WithCsi.scan {s t : Text} (h : WithCsi s t) (hs : esc ∉ s) :
    Held.clear.scan t = (s, .clear) := by
  induction h with
  | nil => rfl
  | keep c _ ih =>
      have hc : c ≠ esc := fun e => hs (e ▸ List.mem_cons_self)
      rw [Held.scan_cons, Held.scanChar_of_ne_esc hc, ih fun h => hs (List.mem_cons_of_mem c h)]
      rfl
  | csi ps f all hf _ ih =>
      rw [Held.scan_csi all hf]
      exact ih hs

theorem WithCsi.refl : ∀ s : Text, WithCsi s s
  | [] => .nil
  | c :: s => .keep c (.refl s)

theorem WithCsi.append {s t s' t' : Text} (h : WithCsi s t) (h' : WithCsi s' t') :
    WithCsi (s ++ s') (t ++ t') := by
  induction h with
  | nil => exact h'
  | keep c _ ih => exact .keep c ih
  | csi ps f all hf _ ih =>
      have := WithCsi.csi ps f all hf ih
      simpa using this

theorem noCr_append (s t : Text) : noCr (s ++ t) = noCr s ++ noCr t := List.filter_append s t

theorem noCr_of_notMem {s : Text} (hs : '\r' ∉ s) : noCr s = s := by
  rw [noCr, List.filter_eq_self]
  intro c hc
  rw [bne_iff_ne]
  rintro rfl
  exact hs hc

theorem noCr_end (e : LineEnd) : noCr e.text = ['\n'] := by
  cases e <;> decide

theorem noCr_endLines {ls : List (Text × LineEnd)} (h : ∀ l ∈ ls, '\r' ∉ l.1) :
    noCr (endLines ls) = unlines (ls.map Prod.fst) := by
  induction ls with
  | nil => rfl
  | cons l ls ih =>
      have htail := ih fun l' hl' => h l' (List.mem_cons_of_mem l hl')
      unfold endLines at htail ⊢
      rw [List.flatMap_cons, noCr_append, noCr_append, noCr_of_notMem (h l List.mem_cons_self),
        noCr_end, htail]
      simp

theorem next_end (h : Held) {c : Char} (hc : c = '\n' ∨ c = '\r') : h.next c = none := by
  cases h with
  | clear => rcases hc with rfl | rfl <;> decide
  | escape => rcases hc with rfl | rfl <;> decide
  | params ps all => rcases hc with rfl | rfl <;> rfl

/-- A line end lets go what a command left withheld. -/
theorem scan_end (h : Held) (e : LineEnd) (s : Text) :
    (h.scan (e.text ++ s)).1 = h.text ++ (e.text ++ (Held.clear.scan s).1) := by
  cases e with
  | lf =>
      rw [LineEnd.text, List.singleton_append, Held.scan_break (next_end h (.inl rfl)) (by decide)]
      rfl
  | crlf =>
      simp only [LineEnd.text, List.cons_append, List.nil_append]
      rw [Held.scan_break (next_end h (.inr rfl)) (by decide),
        Held.scan_break (next_end .clear (.inl rfl)) (by decide)]
      rfl

/-- The cleaned text of an echoed command and what follows it. -/
theorem scan_echo (cmd : Text) (e : LineEnd) (s : Text) :
    noCr (Held.clear.scan (cmd ++ e.text ++ s)).1 =
      noCr (ansiRe.erase cmd) ++ '\n' :: noCr (Held.clear.scan s).1 := by
  have herase := erase_scan .clear cmd
  rw [Held.text_clear, List.nil_append] at herase
  rw [List.append_assoc, Held.scan_append]
  simp only [scan_end]
  rw [← List.append_assoc, ← herase, noCr_append, noCr_append, noCr_end]
  rfl

/-! ## Lines of a text -/

theorem unlines_splitOn (s : Text) : unlines (s.splitOn '\n') = s ++ ['\n'] := by
  induction s with
  | nil => rfl
  | cons c s ih =>
      rw [List.splitOn_cons_eq_if_modifyHead]
      obtain ⟨l, ls, hs⟩ := List.exists_cons_of_ne_nil (List.splitOn_ne_nil '\n' s)
      rw [hs] at ih ⊢
      split
      · next h => simpa [beq_iff_eq.mp h] using ih
      · simpa using ih

/-- A piece between separators holds none. -/
theorem notMem_of_mem_splitOnP {p : Char → Bool} {d : Char} (hd : p d = true) {s : Text} :
    ∀ {l : Text}, l ∈ s.splitOnP p → d ∉ l := by
  induction s with
  | nil => intro l h; simp_all
  | cons c s ih =>
      intro l h
      rw [List.splitOnP_cons_eq_if_modifyHead] at h
      obtain ⟨l₀, ls, hs⟩ := List.exists_cons_of_ne_nil (List.splitOnP_ne_nil p s)
      rw [hs] at ih h
      split at h
      · rcases List.mem_cons.mp h with rfl | h
        · simp
        · exact ih h
      · next hc =>
          rcases List.mem_cons.mp h with rfl | h
          · have := ih List.mem_cons_self
            simp only [List.mem_cons, not_or]
            exact ⟨fun e => hc (e ▸ hd), this⟩
          · exact ih (List.mem_cons_of_mem _ h)

theorem notMem_of_mem_splitOn {s l : Text} (h : l ∈ s.splitOn '\n') : '\n' ∉ l :=
  notMem_of_mem_splitOnP (p := (· == '\n')) rfl h

theorem mem_of_mem_splitOn {s l : Text} {c : Char} (h : l ∈ s.splitOn '\n') (hc : c ∈ l) :
    c ∈ s := by
  have hun : c ∈ unlines (s.splitOn '\n') :=
    List.mem_flatMap.mpr ⟨l, h, List.mem_append_left _ hc⟩
  rw [unlines_splitOn] at hun
  rcases List.mem_append.mp hun with hun | hun
  · exact hun
  · obtain rfl := List.mem_singleton.mp hun
    exact absurd hc (notMem_of_mem_splitOn h)

/-! ## The lines of an output -/

section lines

variable {F : Type*} (U : PyUnicode) (P : PyFloat F)

theorem OutputText.clean {T : Text} (hT : OutputText U T) {l : Text} (hl : l ∈ T.splitOn '\n') :
    CleanLine l where
  noNewline := notMem_of_mem_splitOn hl
  noReturn := fun h => hT.noReturn (mem_of_mem_splitOn hl h)
  noEsc := fun h => hT.noEsc (mem_of_mem_splitOn hl h)

/-- A line of printable characters is clean. -/
theorem CleanLine.of_printable {l : Text} (h : ∀ c ∈ l, ' ' ≤ c) : CleanLine l where
  noNewline := fun hc => absurd (h _ hc) (by decide)
  noReturn := fun hc => absurd (h _ hc) (by decide)
  noEsc := fun hc => absurd (h _ hc) (by decide)

theorem printable_of_isDigit {c : Char} (h : c.isDigit = true) : ' ' ≤ c := by
  simp only [Char.isDigit, Bool.and_eq_true, decide_eq_true_eq, UInt32.le_iff_toNat_le] at h
  have h₁ : ' '.val.toNat = 32 := rfl
  have h₂ : '0'.val.toNat = 48 := rfl
  rw [Char.le_def, UInt32.le_iff_toNat_le]
  omega

theorem printable_dec {n : Nat} : ∀ c ∈ dec n, ' ' ≤ c :=
  fun _ h => printable_of_isDigit (isDigit_of_mem_dec h)

theorem printable_dec2 {n : Nat} : ∀ c ∈ dec2 n, ' ' ≤ c :=
  fun _ h => printable_of_isDigit (isDigit_of_mem_dec2 h)

theorem printable_of_all {u : Text} (h : u.all (fun c => decide (' ' ≤ c)) = true) :
    ∀ c ∈ u, ' ' ≤ c := by
  simpa using h

theorem printable_append {u v : Text} (hu : ∀ c ∈ u, ' ' ≤ c) (hv : ∀ c ∈ v, ' ' ≤ c) :
    ∀ c ∈ u ++ v, ' ' ≤ c :=
  fun _ hc => (List.mem_append.mp hc).elim (hu _) (hv _)

theorem clean_tokenLine (g : GenRun) : CleanLine g.tokenLine := by
  refine .of_printable ?_
  unfold GenRun.tokenLine tokenFormat
  refine printable_append printable_dec (printable_append (printable_of_all rfl)
    (printable_append printable_dec (printable_append (printable_of_all rfl)
    (printable_append (printable_append printable_dec
      (printable_append (printable_of_all rfl) printable_dec2))
    (printable_append (printable_of_all rfl)
    (printable_append printable_dec (printable_of_all rfl)))))))

theorem clean_byteLine (g : GenRun) : CleanLine g.byteLine := by
  refine .of_printable ?_
  unfold GenRun.byteLine byteFormat
  refine printable_append (printable_of_all rfl) (printable_append printable_dec
    (printable_append (printable_of_all rfl) (printable_append printable_dec
    (printable_append (printable_of_all rfl) (printable_append
      (printable_append printable_dec (printable_append (printable_of_all rfl) printable_dec2))
    (printable_of_all rfl))))))

theorem logTpl_head : logTpl = '[' :: "NN:NN:NN.NNN,NNN] <".toList := rfl

/-- A log line starts with its bracket. -/
theorem head_of_isLogLine {l : Text} (h : isLogLine U l = true) : l.head? = some '[' := by
  have hlen : logMatchLen U l = logTpl.length := by simpa [isLogLine] using h
  cases l with
  | nil =>
      rw [show logMatchLen U [] = 0 from rfl] at hlen
      exact absurd hlen (by decide)
  | cons c l =>
      unfold logMatchLen at hlen
      split at hlen
      · next hall =>
          rw [logTpl_head, List.zip_cons_cons, List.all_cons, Bool.and_eq_true] at hall
          have hc : c = '[' := by simpa using hall.1
          rw [hc]
          rfl
      · exact absurd hlen (by decide)

theorem not_isLogLine {c : Char} (hc : c ≠ '[') (l : Text) : isLogLine U (c :: l) = false := by
  cases h : isLogLine U (c :: l) with
  | false => rfl
  | true => exact absurd (Option.some.inj (head_of_isLogLine U h)) hc

theorem prompt_head : prompt = 't' :: "inyllm> ".toList := rfl

theorem not_prompt {c : Char} (hc : c ≠ 't') (l : Text) : ¬ prompt <+: c :: l := by
  intro h
  rw [prompt_head] at h
  exact hc (List.cons_prefix_cons.mp h).1.symm

theorem tokenLine_head (g : GenRun) : ∃ c l, g.tokenLine = c :: l ∧ c ≠ '[' ∧ c ≠ 't' := by
  obtain ⟨c, ds, hds⟩ := List.exists_cons_of_ne_nil (dec_ne_nil g.pos)
  have hc : c.isDigit = true := isDigit_of_mem_dec (n := g.pos) (hds ▸ List.mem_cons_self)
  unfold GenRun.tokenLine tokenFormat
  rw [hds]
  refine ⟨c, _, rfl, ?_, ?_⟩
  · rintro rfl
    exact absurd hc (by decide)
  · rintro rfl
    exact absurd hc (by decide)

theorem byteLine_head (g : GenRun) : ∃ l, g.byteLine = 'w' :: l := ⟨_, rfl⟩

/-- The lines of an output are clean, none a log line and none like the prompt. -/
theorem outputLines_plain {T : Text} (hT : OutputText U T) (g : GenRun) {l : Text}
    (hl : l ∈ outputLines T g) : CleanLine l ∧ ¬ prompt <+: l := by
  rcases List.mem_append.mp hl with hl | hl
  · exact ⟨hT.clean U hl, hT.noPrompt l hl⟩
  · rcases List.mem_cons.mp hl with rfl | hl
    · exact ⟨.of_printable (printable_of_all rfl), not_prompt (by decide) _⟩
    · rcases List.mem_cons.mp hl with rfl | hl
      · obtain ⟨c, l, h, -, hc⟩ := tokenLine_head g
        exact ⟨clean_tokenLine g, h ▸ not_prompt hc l⟩
      · obtain rfl := List.mem_singleton.mp hl
        obtain ⟨l, h⟩ := byteLine_head g
        exact ⟨clean_byteLine g, h ▸ not_prompt (by decide) l⟩

namespace Transcript

variable {U} {T stream : Text} {g : GenRun}

theorem line_plain (hT : OutputText U T) (t : Transcript U T g stream) {l : Text × LineEnd}
    (hl : l ∈ t.lines) : CleanLine l.1 ∧ ¬ prompt <+: l.1 := by
  cases hlog : isLogLine U l.1 with
  | true =>
      refine ⟨t.logs l hl hlog, ?_⟩
      have hhead := head_of_isLogLine U hlog
      intro h
      cases hl1 : l.1 with
      | nil =>
          rw [hl1] at hhead
          cases hhead
      | cons c l' =>
          rw [hl1] at hhead h
          obtain rfl := Option.some.inj hhead
          exact not_prompt (by decide) l' h
  | false =>
      have hmem : l.1 ∈ (t.lines.map Prod.fst).filter (fun l => !isLogLine U l) :=
        List.mem_filter.mpr ⟨List.mem_map_of_mem hl, by rw [hlog]; rfl⟩
      rw [t.output] at hmem
      exact outputLines_plain U hT g hmem

/-- Cleaned, a transcript is its lines and the prompt. -/
theorem cleaned (hT : OutputText U T) (t : Transcript U T g stream) :
    noCr (Held.clear.scan stream).1 = unlines (t.lines.map Prod.fst) ++ prompt := by
  have hesc : esc ∉ endLines t.lines ++ prompt := by
    intro h
    rcases List.mem_append.mp h with h | h
    · obtain ⟨l, hl, hc⟩ := List.mem_flatMap.mp h
      rcases List.mem_append.mp hc with hc | hc
      · exact (t.line_plain hT hl).1.noEsc hc
      · cases hend : l.2 with
        | lf => rw [hend] at hc; exact absurd hc (by decide)
        | crlf => rw [hend] at hc; exact absurd hc (by decide)
    · exact absurd h (by decide)
  rw [t.woven.scan hesc, noCr_append,
    noCr_endLines fun l hl => (t.line_plain hT hl).1.noReturn,
    noCr_of_notMem (s := prompt) (by decide)]

end Transcript

/-! ## The events of an output -/

/-- At the front of a line, a log line leaves no trace. -/
theorem completeLine_log {s : LineState} (hs : s.lineIsText = false) {l : Text}
    (hlog : isLogLine U l = true) : completeLine U P s l = (s, .ok []) := by
  cases s
  subst hs
  simp [completeLine, hlog]

theorem lineEvents_filter {s : LineState} (hs : s.lineIsText = false) (ls : List Text) :
    lineEvents U P s ls = lineEvents U P s (ls.filter fun l => !isLogLine U l) := by
  induction ls generalizing s with
  | nil => rfl
  | cons l ls ih =>
      cases hlog : isLogLine U l with
      | true =>
          rw [List.filter_cons_of_neg (by simp [hlog]), ← ih hs]
          exact lineEvents_ok (completeLine_log U P hs hlog) ls
      | false =>
          have htext := completeLine_lineIsText U P s l
          rw [List.filter_cons_of_pos (by simp [hlog])]
          rcases hline : completeLine U P s l with ⟨s', e | evs⟩
          · rw [lineEvents_error hline, lineEvents_error hline]
          · rw [hline] at htext
            rw [lineEvents_ok hline, lineEvents_ok hline, ih htext]

/-- In the stream, lines that are no control lines are text. -/
theorem lineEvents_text {s : LineState} (hstate : s.state = .stream)
    (htext : s.lineIsText = false) {ls : List Text} (rest : List Text)
    (h : ∀ l ∈ ls, isLogLine U l = false ∧ l ≠ footerMark ∧ isError l = false) :
    lineEvents U P s (ls ++ rest) =
      (lineEvents U P s rest).behind (ls.map fun l => .text (l ++ ['\n'])) := by
  induction ls with
  | nil => rfl
  | cons l ls ih =>
      obtain ⟨hlog, hmark, herr⟩ := h l List.mem_cons_self
      have hline : completeLine U P s l = (s, .ok [.text (l ++ ['\n'])]) := by
        cases s
        subst hstate htext
        simp [completeLine, hlog, hmark, herr]
      rw [List.cons_append, lineEvents_ok hline, ih fun l' hl' => h l' (List.mem_cons_of_mem l hl')]
      rfl

theorem texts_map (ls : List Text) (es : List (Event F)) :
    texts (ls.map (fun l => .text (l ++ ['\n'])) ++ es) = unlines ls ++ texts es := by
  induction ls with
  | nil => rfl
  | cons l ls ih =>
      rw [Event.texts_append] at ih ⊢
      simp [texts, ih]

theorem controls_map (ls : List Text) (es : List (Event F)) :
    controls (ls.map (fun l => .text (l ++ ['\n'])) ++ es) = controls es := by
  induction ls with
  | nil => rfl
  | cons l ls ih => simpa [controls] using ih

/-- The footer is one event, the statistics. -/
theorem lineEvents_footer (g : GenRun) :
    lineEvents U P ⟨true, .stream, false, []⟩ [footerMark, g.tokenLine, g.byteLine] =
      ⟨[.stats (g.stats P)], none⟩ := by
  have hmark : completeLine U P ⟨true, .stream, false, []⟩ footerMark =
      (⟨true, .footer, false, []⟩, .ok []) := by
    have hlog : isLogLine U footerMark = false := not_isLogLine U (by decide) _
    simp [completeLine, hlog]
  have htoken : completeLine U P ⟨true, .footer, false, []⟩ g.tokenLine =
      (⟨true, .footer, false, [g.tokenLine]⟩, .ok []) := by
    obtain ⟨c, l, h, hc, -⟩ := tokenLine_head g
    have hlog : isLogLine U g.tokenLine = false := h ▸ not_isLogLine U hc l
    simp [completeLine, hlog]
  have hbyte : completeLine U P ⟨true, .footer, false, [g.tokenLine]⟩ g.byteLine =
      (⟨true, .tail, false, [g.tokenLine, g.byteLine]⟩, .ok [.stats (g.stats P)]) := by
    obtain ⟨l, h⟩ := byteLine_head g
    have hlog : isLogLine U g.byteLine = false := h ▸ not_isLogLine U (by decide) l
    have hjoin : List.intercalate ['\n'] [g.tokenLine, g.byteLine] =
        g.tokenLine ++ '\n' :: g.byteLine := by simp [List.intercalate]
    simp [completeLine, hlog, hjoin, parseStatsSerial_footer]
  rw [lineEvents_ok hmark, lineEvents_ok htoken, lineEvents_ok hbyte]
  rfl

/-- **A whole command.**  Whatever pieces the echo and the transcript come in,
the framer puts out the text and a newline, no error, the printed statistics
once and then the end once. -/
theorem shellFramer_transcript {cmd : Text} (hcmd : CommandLine cmd) (eol : LineEnd) {T : Text}
    (hT : OutputText U T) (g : GenRun) {stream : Text} (t : Transcript U T g stream)
    (chunks : List Text) (hchunks : chunks.flatten = cmd ++ eol.text ++ stream) :
    texts ((ShellFramer.new true cmd).feeds U P chunks).2.events = T ++ ['\n'] ∧
      controls ((ShellFramer.new true cmd).feeds U P chunks).2.events =
        [.stats (g.stats P), .done] ∧
      ((ShellFramer.new true cmd).feeds U P chunks).2.raised = none := by
  have hclean : noCr (Held.clear.scan chunks.flatten).1 =
      noCr (ansiRe.erase cmd) ++ '\n' :: (unlines (t.lines.map Prod.fst) ++ prompt) := by
    rw [hchunks, scan_echo, t.cleaned hT]
  have hline : '\n' ∉ noCr (ansiRe.erase cmd) := by
    intro h
    exact hcmd.oneLine ((Regex.Rx.erase_sublist ansiRe cmd).subset (List.mem_filter.mp h).1)
  have hplain : ∀ l ∈ t.lines.map Prod.fst, PlainLine l := by
    intro l hl
    obtain ⟨l', hl', rfl⟩ := List.mem_map.mp hl
    obtain ⟨h₁, h₂⟩ := t.line_plain hT hl'
    exact ⟨h₁.noNewline, h₂⟩
  have hevents : lineEvents U P ⟨true, .stream, false, []⟩ (t.lines.map Prod.fst) =
      ⟨(T.splitOn '\n').map (fun l => .text (l ++ ['\n'])) ++ [.stats (g.stats P)], none⟩ := by
    rw [lineEvents_filter U P rfl, t.output, outputLines, lineEvents_text U P rfl rfl,
      lineEvents_footer]
    · rfl
    · intro l hl
      refine ⟨hT.noLog l hl, hT.noMark l hl, ?_⟩
      cases herr : isError l with
      | false => rfl
      | true =>
          obtain ⟨e, he, hle⟩ := List.any_eq_true.mp herr
          exact absurd ⟨e, he, List.isPrefixOf_iff_prefix.mp hle⟩ (hT.noError l hl)
  obtain ⟨⟨htexts, hcontrols⟩, hok⟩ :=
    feeds_lines U P true hclean hline hcmd.echoed hplain (by rw [hevents])
  rw [hevents] at htexts hcontrols
  simp only [List.append_assoc] at htexts hcontrols
  rw [texts_map, unlines_splitOn] at htexts
  rw [controls_map] at hcontrols
  exact ⟨by rw [← htexts]; simp [texts], by rw [← hcontrols]; rfl, hok⟩

end lines

/-! ## A session with the board -/

def asciiOnly : PyUnicode := ⟨fun _ => false, fun _ => none⟩

def exactFloat : PyFloat Rat := ⟨id, (· / ·)⟩

def onceCommand : Text := "tinyllm gen -n 4 -t 0.9 -p 0.9 -s 7 \"Once\"".toList

def onceText : Text := "Once upon a time\nthere was a pony.".toList

def onceRun : GenRun where
  pos := 64
  dt := 16104
  tFirst := 262
  read := 558345216
  pos_lt := by decide
  dt_lt := by decide
  tFirst_lt := by decide
  read_lt := by decide

def onceLines : List (Text × LineEnd) :=
  [("Once upon a time".toList, .lf), ("there was a pony.".toList, .crlf),
    ("[00:00:01.123,456] <inf> tinyllm: something".toList, .crlf), (footerMark, .crlf),
    (onceRun.tokenLine, .crlf), (onceRun.byteLine, .crlf)]

/-- The lines in green, the prompt in bold. -/
def onceStream : Text :=
  (esc :: '[' :: "32".toList ++ 'm' :: endLines onceLines) ++
    (esc :: '[' :: "1;39".toList ++ 'm' :: prompt)

theorem onceOutput : OutputText asciiOnly onceText where
  noEsc := by decide
  noReturn := by decide
  noMark := by decide
  noError := by decide
  noLog := by decide
  noPrompt := by decide

theorem onceCommandLine : CommandLine onceCommand where
  oneLine := by decide
  echoed := by decide

def onceTranscript : Transcript asciiOnly onceText onceRun onceStream where
  lines := onceLines
  output := by decide
  logs := by
    intro l hl _
    have hprint : ∀ l ∈ onceLines, l.1.all (fun c => decide (' ' ≤ c)) = true := by decide
    exact .of_printable (printable_of_all (hprint l hl))
  woven := (WithCsi.csi "32".toList 'm' (List.all_eq_true.mp rfl) rfl (.refl _)).append
    (WithCsi.csi "1;39".toList 'm' (List.all_eq_true.mp rfl) rfl (.refl prompt))

theorem shellFramer_transcript_once :
    texts ((ShellFramer.new true onceCommand).feeds asciiOnly exactFloat
      ((onceCommand ++ LineEnd.crlf.text ++ onceStream).map ([·]))).2.events =
        onceText ++ ['\n'] ∧
    controls ((ShellFramer.new true onceCommand).feeds asciiOnly exactFloat
      ((onceCommand ++ LineEnd.crlf.text ++ onceStream).map ([·]))).2.events =
        [.stats (onceRun.stats exactFloat), .done] ∧
    ((ShellFramer.new true onceCommand).feeds asciiOnly exactFloat
      ((onceCommand ++ LineEnd.crlf.text ++ onceStream).map ([·]))).2.raised = none :=
  shellFramer_transcript asciiOnly exactFloat onceCommandLine .crlf onceOutput onceRun
    onceTranscript
    _ (by rw [← List.flatMap_def, List.flatMap_singleton'])

end TinyLlm
