/-
# `TinyLlm.Chat.Command` — `build_gen_command`

The tool sends a prompt as one double-quoted word, so that the shell passes
spaces and apostrophes through; what the shell would still parse, or drop, is
an error here.  Every command it builds is a `CommandLine` as the framer needs
it, whatever the prompt holds (`buildGenCommand_commandLine`): the closing
quote is the only one after the opening quote, so what the terminal filter
leaves of a command is never just a beginning of it.
-/
import TinyLlm.Chat.Session

namespace TinyLlm

/-- `SHELL_CMD_MAX` -/
def shellCmdMax : Nat := 255

/-- `PROMPT_BUF_MAX` -/
def promptBufMax : Nat := 189

/-- `class GenOpts`, with its floats. -/
structure GenOpts (F : Type*) where
  n : Int
  temp : F
  topp : F

/-- What `str.split()` and `:g` do: which characters are blank, and how a float
is printed. -/
structure PyText (F : Type*) where
  isspace : Char → Bool
  g : F → Text

/-- `s.split()`: the words between runs of blanks. -/
def splitWords (isspace : Char → Bool) (s : Text) : List Text :=
  (s.splitOnP isspace).filter fun w => !w.isEmpty

/-- `len(s.encode())` -/
def utf8Length (s : Text) : Nat := (s.map Char.utf8Size).sum

/-- `str(i)` -/
def showInt : Int → Text
  | .ofNat n => dec n
  | .negSucc n => '-' :: dec (n + 1)

section build

variable {F : Type*} (Y : PyText F)

/-- The command without its prompt. -/
def genFlags (opts : GenOpts F) (seed : Int) : Text :=
  "tinyllm gen -n ".toList ++ showInt opts.n ++ " -t ".toList ++ Y.g opts.temp ++
    " -p ".toList ++ Y.g opts.topp ++ " -s ".toList ++ showInt seed ++ [' ']

/-- `build_gen_command` -/
def buildGenCommand (line : Text) (opts : GenOpts F) (seed : Int) : Except Text Text :=
  let line := List.intercalate [' '] (splitWords Y.isspace line)
  if line = [] then .error "empty prompt".toList
  else if '"' ∈ line then
    .error "the Zephyr shell parses double quotes; remove them from the prompt".toList
  else if '\\' ∈ line then
    .error "the Zephyr shell consumes backslashes; remove them from the prompt".toList
  else if promptBufMax < utf8Length line then
    .error ("prompt is ".toList ++ dec (utf8Length line) ++
      " bytes; the firmware caps it at ".toList ++ dec promptBufMax)
  else
    let cmd := genFlags Y opts seed ++ '"' :: line ++ ['"']
    if shellCmdMax < utf8Length cmd then
      .error ("command is ".toList ++ dec (utf8Length cmd) ++
        " bytes; the shell buffer caps it at ".toList ++ dec shellCmdMax)
    else .ok cmd

/-- How the library behaves where the command depends on it: a newline is
blank, and a float prints as printable characters without a quote. -/
structure PyText.Lawful : Prop where
  newline : Y.isspace '\n' = true
  printable : ∀ x, ∀ c ∈ Y.g x, ' ' ≤ c ∧ c ≠ '"'

theorem printable_showInt (i : Int) : ∀ c ∈ showInt i, ' ' ≤ c := by
  cases i with
  | ofNat n => exact printable_dec
  | negSucc n => exact printable_append (u := ['-']) (printable_of_all rfl) printable_dec

theorem printable_genFlags (hY : Y.Lawful) (opts : GenOpts F) (seed : Int) :
    ∀ c ∈ genFlags Y opts seed, ' ' ≤ c := by
  have hg : ∀ x, ∀ c ∈ Y.g x, ' ' ≤ c := fun x c hc => (hY.printable x c hc).1
  exact printable_append (printable_append (printable_append (printable_append (printable_append
    (printable_append (printable_append (printable_append (printable_of_all rfl)
      (printable_showInt _)) (printable_of_all rfl)) (hg _)) (printable_of_all rfl)) (hg _))
      (printable_of_all rfl)) (printable_showInt _)) (printable_of_all rfl)

/-- The words hold no blank, and one space joins them. -/
theorem notMem_words {isspace : Char → Bool} {c : Char} (hc : isspace c = true) (hne : c ≠ ' ')
    (s : Text) : c ∉ List.intercalate [' '] (splitWords isspace s) := by
  have hwords : ∀ w ∈ splitWords isspace s, c ∉ w :=
    fun w hw => notMem_of_mem_splitOnP hc (List.mem_filter.mp hw).1
  generalize splitWords isspace s = ws at hwords
  induction ws with
  | nil => simp
  | cons w ws ih =>
      have hw := hwords w List.mem_cons_self
      have htail := ih fun v hv => hwords v (List.mem_cons_of_mem w hv)
      cases ws with
      | nil => simpa using hw
      | cons v ws =>
          rw [List.intercalate_cons_of_ne_nil (by simp)]
          simp only [List.mem_append, List.mem_singleton, not_or]
          exact ⟨⟨hw, hne⟩, htail⟩

/-- The filter leaves a quoted word in its quotes. -/
theorem erase_quoted {u : Text} (hu : ∀ c ∈ u, ' ' ≤ c) (line : Text) :
    noCr (ansiRe.erase (u ++ '"' :: line ++ ['"'])) =
      u ++ '"' :: (noCr (ansiRe.erase line) ++ ['"']) := by
  have hne : ∀ c ∈ u ++ ['"'], c ≠ esc := by
    intro c hc
    rintro rfl
    exact absurd (printable_append hu (v := ['"']) (printable_of_all rfl) _ hc) (by decide)
  have hquote : ansiRe.erase (line ++ ['"']) = ansiRe.erase line ++ ['"'] := by
    have hnext : (Held.clear.scan line).2.next '"' = none := by
      cases (Held.clear.scan line).2 with
      | clear => decide
      | escape => decide
      | params ps all => rfl
    have hline := erase_scan .clear line
    have happ := erase_scan .clear (line ++ ['"'])
    rw [Held.scan_append, Held.scan_break hnext (by decide)] at happ
    simp only [Held.text_clear, List.nil_append, Held.scan_nil, List.append_nil] at hline happ
    rw [hline, happ, List.append_assoc]
  have hu' : noCr (u ++ ['"']) = u ++ ['"'] := by
    refine noCr_of_notMem fun h => ?_
    exact absurd (printable_append hu (v := ['"']) (printable_of_all rfl) _ h) (by decide)
  have hsplit : u ++ '"' :: line ++ ['"'] = (u ++ ['"']) ++ (line ++ ['"']) := by simp
  rw [hsplit, erase_append_of_ne_esc hne, hquote, noCr_append, hu', noCr_append,
    noCr_of_notMem (s := ['"']) (by decide)]
  simp

/-- **Every command the tool builds is one the framer recognises**, whatever
control sequences its prompt holds. -/
theorem buildGenCommand_commandLine (hY : Y.Lawful) {line : Text} {opts : GenOpts F} {seed : Int}
    {cmd : Text} (h : buildGenCommand Y line opts seed = .ok cmd) : CommandLine cmd := by
  unfold buildGenCommand at h
  dsimp only at h
  have hnl := notMem_words hY.newline (by decide) line
  generalize List.intercalate [' '] (splitWords Y.isspace line) = word at h hnl
  split at h
  · cases h
  split at h
  · cases h
  next hquote =>
  split at h
  · cases h
  split at h
  · cases h
  split at h
  · cases h
  obtain rfl := Except.ok.inj h
  have hflags := printable_genFlags Y hY opts seed
  refine ⟨?_, ?_⟩
  · simp only [List.mem_append, List.mem_cons, List.not_mem_nil, not_or]
    refine ⟨⟨fun hc => ?_, by decide, hnl⟩, by decide, by simp⟩
    exact absurd (hflags _ hc) (by decide)
  · rw [erase_quoted hflags]
    rintro ⟨hpre, hlen⟩
    rw [List.append_assoc, List.cons_append] at hpre
    have hpre := (List.cons_prefix_cons.mp ((List.prefix_append_right_inj _).mp hpre)).2
    -- the closing quote of what is left would stand inside the word
    have hword : noCr (ansiRe.erase word) ++ ['"'] <+: word := by
      refine List.prefix_of_prefix_length_le hpre (List.prefix_append _ _) ?_
      simp at hlen ⊢
      omega
    exact hquote (hword.subset (by simp))

end build

end TinyLlm
