/-
# `TinyLlm.Chat.Stats` — the statistics lines, printed and read back

`cmd_gen` ends a run with two lines of numbers (`GenRun.tokenLine`,
`GenRun.byteLine`), and the chat tool finds the numbers in them again with two
patterns (`parseStatsSerial`).  The decimals come back as printed
(`parseStatsSerial_footer`).

The patterns match numbers of any length, but Python does not take them all:
`int` refuses very long ones and the division of an integer by a float those
that no float holds (`PyError`).  The board's numbers have machine widths.

What Python knows about characters beyond ASCII (`str.isdigit`, `\d`) and its
float arithmetic are parameters: neither has a part in the lines printed by
the board, which hold ASCII digits only.
-/
import TinyLlm.Chat.Ansi
import Mathlib.Data.Rat.Defs
import Mathlib.Data.List.Basic
import Mathlib.Data.Nat.Digits.Defs

namespace TinyLlm

open Regex (Rx)

/-- Python's tables for the characters beyond ASCII: `str.isdigit()`, and the
value of a character that `\d` matches. -/
structure PyUnicode where
  isDigit : Char → Bool
  decimal : Char → Option Nat

namespace PyUnicode

variable (U : PyUnicode)

/-- `c.isdigit()` -/
def isdigit (c : Char) : Bool := if c.toNat < 128 then c.isDigit else U.isDigit c

/-- The value of a decimal digit. -/
def value (c : Char) : Option Nat :=
  if c.toNat < 128 then if c.isDigit then some (c.toNat - '0'.toNat) else none
  else U.decimal c

/-- `\d` -/
def d (c : Char) : Bool := (U.value c).isSome

/-- The number that a run of digits spells. -/
def number (s : Text) : Nat := s.foldl (fun n c => 10 * n + (U.value c).getD 0) 0

/-- The number that `\d+\.\d+` spells. -/
def decimalPoint (s : Text) : Rat :=
  let whole := s.takeWhile (· != '.')
  let frac := s.drop (whole.length + 1)
  U.number whole + U.number frac / 10 ^ frac.length

end PyUnicode

/-- What Python raises over a number. -/
inductive PyError where
  /-- `int` of too many digits. -/
  | valueError
  /-- An integer that no float holds. -/
  | overflowError
deriving DecidableEq

/-- `sys.int_info.default_max_str_digits` -/
def maxStrDigits : Nat := 4300

/-- `int(s)` of a run of digits. -/
def PyUnicode.int (U : PyUnicode) (s : Text) : Except PyError Nat :=
  if maxStrDigits < s.length then .error .valueError else .ok (U.number s)

/-- Python's floats: the nearest one to a rational, and division. -/
structure PyFloat (F : Type*) where
  ofRat : Rat → F
  div : F → F → F

/-- The first integer that rounds to no float. -/
def floatLimit : Nat := 2 ^ 1024 - 2 ^ 970

/-- An integer divided by a float, which it becomes first. -/
def PyFloat.quotient {F : Type*} (P : PyFloat F) (n : Nat) (d : Rat) : Except PyError F :=
  if floatLimit ≤ n then .error .overflowError else .ok (P.div (P.ofRat n) (P.ofRat d))

/-- `int(s) / d` -/
def PyFloat.intQuotient {F : Type*} (U : PyUnicode) (P : PyFloat F) (s : Text) (d : Rat) :
    Except PyError F :=
  match U.int s with
  | .error e => .error e
  | .ok n => P.quotient n d

/-- `class GenStats` -/
structure GenStats (F : Type*) where
  tokens : Nat
  seconds : F
  tokS : F
  firstS : F
  mbPerToken : Option F
  effMbs : Option F
deriving DecidableEq

section patterns

variable (U : PyUnicode)

/-- `(\d+)` and then `r`. -/
def numRe (r : Rx Char) : Rx Char := .seq (.group (.many1 U.d)) r

/-- `(\d+\.\d+)` and then `r`. -/
def decRe (r : Rx Char) : Rx Char :=
  .seq (.group (.seq (.many1 U.d) (.lit ['.'] (.many1 U.d)))) r

/-- `_SERIAL_STATS_RE` -/
def serialStatsRe : Rx Char :=
  numRe U <| .lit " tokens in ".toList <| numRe U <| .lit " ms = ".toList <| decRe U <|
    .lit " tok/s (first token ".toList <| numRe U <| .lit " ms)".toList .eps

/-- `_SERIAL_BYTES_RE` -/
def serialBytesRe : Rx Char :=
  .lit "weights read ".toList <| .seq (.many1 U.d) <| .lit " KB total, ".toList <| numRe U <|
    .lit " KB/token, effective ".toList <| decRe U <| .lit " MB/s".toList .eps

end patterns

/-- `parse_stats_serial` -/
def parseStatsSerial {F : Type*} (U : PyUnicode) (P : PyFloat F) (text : Text) :
    Except PyError (Option (GenStats F)) :=
  match (serialStatsRe U).search text with
  | none => .ok none
  | some (_, m, _) =>
      match U.int (m.getD 0 []) with
      | .error e => .error e
      | .ok tokens => do
          let seconds ← P.intQuotient U (m.getD 1 []) 1000
          let tokS := P.ofRat (U.decimalPoint (m.getD 2 []))
          let firstS ← P.intQuotient U (m.getD 3 []) 1000
          let st : GenStats F := ⟨tokens, seconds, tokS, firstS, none, none⟩
          match (serialBytesRe U).search text with
          | none => pure (some st)
          | some (_, b, _) =>
              let mbPerToken ← P.intQuotient U (b.getD 0 []) 1024
              let effMbs := P.ofRat (U.decimalPoint (b.getD 1 []))
              pure (some { st with mbPerToken := some mbPerToken, effMbs := some effMbs })

/-! ## What the board prints -/

/-- `%u`, `%lld` of a number that is not negative. -/
def dec (n : Nat) : Text := Nat.toDigits 10 n

/-- `%02u` -/
def dec2 (n : Nat) : Text := if n < 10 then '0' :: dec n else dec n

/-- `"%d tokens in %lld ms = %u.%02u tok/s (first token %lld ms)"` -/
def tokenFormat (pos dt whole frac tFirst : Nat) : Text :=
  dec pos ++ (" tokens in ".toList ++ (dec dt ++ (" ms = ".toList ++
    ((dec whole ++ (['.'] ++ dec2 frac)) ++ (" tok/s (first token ".toList ++
      (dec tFirst ++ " ms)".toList))))))

/-- `"weights read %llu KB total, %llu KB/token, effective %u.%02u MB/s"` -/
def byteFormat (total perToken whole frac : Nat) : Text :=
  "weights read ".toList ++ (dec total ++ (" KB total, ".toList ++
    (dec perToken ++ (" KB/token, effective ".toList ++
      ((dec whole ++ (['.'] ++ dec2 frac)) ++ " MB/s".toList)))))

/-- What a run of `cmd_gen` knows when it prints: the positions fed, the
milliseconds in all and to the first token, the bytes read; and that the clock
does not run backwards. -/
structure GenRun where
  pos : Nat
  dt : Nat
  tFirst : Nat
  read : Nat
  /-- An `int`. -/
  pos_lt : pos < 2 ^ 31
  /-- An `int64_t`. -/
  dt_lt : dt < 2 ^ 63
  /-- An `int64_t`. -/
  tFirst_lt : tFirst < 2 ^ 63
  /-- A `uint64_t`. -/
  read_lt : read < 2 ^ 64

namespace GenRun

variable (g : GenRun)

/-- `dt ? dt : 1` -/
def dt1 : Nat := if g.dt = 0 then 1 else g.dt

/-- Tokens a second, times 100. -/
def mtps : Nat := g.pos * 100000 % 2 ^ 64 / g.dt1 % 2 ^ 32

/-- `KB/s` -/
def bw : Nat := g.read * 1000 % 2 ^ 64 / g.dt1 / 1000 % 2 ^ 32

/-- `read / 1024u / (pos ? pos : 1)` -/
def perToken : Nat := g.read / 1024 / (if g.pos = 0 then 1 else g.pos)

/-- The first line of statistics. -/
def tokenLine : Text := tokenFormat g.pos g.dt (g.mtps / 100) (g.mtps % 100) g.tFirst

/-- The second line of statistics. -/
def byteLine : Text := byteFormat (g.read / 1024) g.perToken (g.bw / 1000) (g.bw / 10 % 100)

/-- The printed numbers, as the chat tool keeps them. -/
def stats {F : Type*} (P : PyFloat F) : GenStats F where
  tokens := g.pos
  seconds := P.div (P.ofRat g.dt) (P.ofRat 1000)
  tokS := P.ofRat ((g.mtps / 100 : Nat) + (g.mtps % 100 : Nat) / 100)
  firstS := P.div (P.ofRat g.tFirst) (P.ofRat 1000)
  mbPerToken := some (P.div (P.ofRat g.perToken) (P.ofRat 1024))
  effMbs := some (P.ofRat ((g.bw / 1000 : Nat) + (g.bw / 10 % 100 : Nat) / 100))

end GenRun

/-! ## Digits -/

theorem Char.lt_of_isDigit {c : Char} (h : c.isDigit = true) : c.toNat < 128 := by
  simp only [Char.isDigit, Bool.and_eq_true, decide_eq_true_eq, UInt32.le_iff_toNat_le] at h
  have : c.toNat = c.val.toNat := rfl
  have : '9'.val.toNat = 57 := rfl
  omega

section digits

variable (U : PyUnicode)

theorem value_of_isDigit {c : Char} (h : c.isDigit = true) :
    U.value c = some (c.toNat - '0'.toNat) := by
  simp [PyUnicode.value, Char.lt_of_isDigit h, h]

theorem d_of_isDigit {c : Char} (h : c.isDigit = true) : U.d c = true := by
  simp [PyUnicode.d, value_of_isDigit U h]

/-- No other ASCII character is a digit. -/
theorem d_ascii {c : Char} (hc : c.toNat < 128) (h : c.isDigit = false) : U.d c = false := by
  simp [PyUnicode.d, PyUnicode.value, hc, h]

theorem isDigit_of_mem_dec {n : Nat} {c : Char} (h : c ∈ dec n) : c.isDigit = true :=
  Nat.isDigit_of_mem_toDigits (by decide) (by decide) h

theorem isDigit_of_mem_dec2 {n : Nat} {c : Char} (h : c ∈ dec2 n) : c.isDigit = true := by
  unfold dec2 at h
  split at h
  · rcases List.mem_cons.mp h with rfl | h
    · rfl
    · exact isDigit_of_mem_dec h
  · exact isDigit_of_mem_dec h

theorem dec_ne_nil (n : Nat) : dec n ≠ [] := Nat.toDigits_ne_nil

theorem dec2_ne_nil (n : Nat) : dec2 n ≠ [] := by
  unfold dec2
  split
  · simp
  · exact dec_ne_nil n

theorem foldl_value {s : Text} (hs : ∀ c ∈ s, c.isDigit = true) : ∀ n : Nat,
    s.foldl (fun n c => 10 * n + (U.value c).getD 0) n = Nat.ofDigitChars 10 s n := by
  induction s with
  | nil => intro n; rfl
  | cons c s ih =>
      intro n
      rw [List.foldl_cons, value_of_isDigit U (hs c (by simp)), Nat.ofDigitChars_cons]
      exact ih (fun c hc => hs c (by simp [hc])) _

/-- A printed number reads back. -/
theorem number_dec (n : Nat) : U.number (dec n) = n := by
  rw [PyUnicode.number, foldl_value U (fun _ => isDigit_of_mem_dec) 0]
  exact Nat.ofDigitChars_ten_toDigits

theorem number_dec2 (n : Nat) : U.number (dec2 n) = n := by
  unfold dec2
  split
  · rw [PyUnicode.number, List.foldl_cons]
    exact number_dec U n
  · exact number_dec U n

theorem two_pow_64_lt : 2 ^ 64 < 10 ^ maxStrDigits :=
  lt_of_lt_of_le (by norm_num : (2 : Nat) ^ 64 < 10 ^ 20)
    (Nat.pow_le_pow_right (by decide) (by decide))

/-- A number of machine width is not too long for `int`, -/
theorem int_dec {n : Nat} (hn : n < 2 ^ 64) : U.int (dec n) = .ok n := by
  have hlen : (dec n).length ≤ maxStrDigits :=
    (Nat.length_toDigits_le_iff (by decide) (by decide)).mpr (hn.trans two_pow_64_lt)
  rw [PyUnicode.int, if_neg (by omega), number_dec]

theorem two_pow_le_sub {a b c : Nat} (h : a ≤ b) (h' : b < c) : 2 ^ a ≤ 2 ^ c - 2 ^ b := by
  have hab : 2 ^ a ≤ 2 ^ b := Nat.pow_le_pow_right (by decide) h
  have hbc : 2 ^ (b + 1) ≤ 2 ^ c := Nat.pow_le_pow_right (by decide) h'
  rw [Nat.two_pow_succ] at hbc
  omega

theorem two_pow_64_le : 2 ^ 64 ≤ floatLimit := two_pow_le_sub (by decide) (by decide)

/-- nor too large for a float. -/
theorem intQuotient_dec {F : Type*} (P : PyFloat F) {n : Nat} (hn : n < 2 ^ 64) (d : Rat) :
    P.intQuotient U (dec n) d = .ok (P.div (P.ofRat n) (P.ofRat d)) := by
  have hlimit := two_pow_64_le
  rw [PyFloat.intQuotient, int_dec U hn]
  exact if_neg (by omega)

theorem length_dec2 {n : Nat} (hn : n < 100) : (dec2 n).length = 2 := by
  unfold dec2
  split
  · next h => simp [dec, Nat.toDigits_of_lt_base h]
  · next h =>
      have h₁ : (dec n).length ≤ 2 := (Nat.length_toDigits_le_iff (by decide) (by decide)).mpr hn
      have h₂ : ¬ (dec n).length ≤ 1 := by
        intro h₂
        have := (Nat.length_toDigits_le_iff (by decide) (by decide)).mp h₂
        omega
      omega

/-- A printed decimal reads back. -/
theorem decimalPoint_dec (m : Nat) {n : Nat} (hn : n < 100) :
    U.decimalPoint (dec m ++ (['.'] ++ dec2 n)) = (m : Rat) + n / 100 := by
  have hne : ∀ c ∈ dec m, (c != '.') = true := by
    intro c hc
    have := isDigit_of_mem_dec hc
    rw [bne_iff_ne]
    rintro rfl
    exact absurd this (by decide)
  have hwhole : (dec m ++ (['.'] ++ dec2 n)).takeWhile (· != '.') = dec m := by
    rw [List.takeWhile_append_of_pos hne]
    simp
  have hfrac : (dec m ++ (['.'] ++ dec2 n)).drop ((dec m).length + 1) = dec2 n := by
    rw [← List.append_assoc]
    exact List.drop_left' (by simp)
  unfold PyUnicode.decimalPoint
  simp only [hwhole, hfrac, number_dec, number_dec2, length_dec2 hn]
  norm_num

/-- A run of digits is taken whole. -/
theorem first_digits {s t : Text} (hs : ∀ c ∈ s, c.isDigit = true) (hne : s ≠ [])
    (ht : ∀ c ∈ t.head?, U.d c = false) : (Rx.many1 U.d).first (s ++ t) = some ([], t) :=
  Rx.first_many1_append (fun c hc => d_of_isDigit U (hs c hc)) hne ht

theorem first_dec {n : Nat} {t : Text} (ht : ∀ c ∈ t.head?, U.d c = false) :
    (Rx.many1 U.d).first (dec n ++ t) = some ([], t) :=
  first_digits U (fun _ => isDigit_of_mem_dec) (dec_ne_nil n) ht

/-- What every text between the numbers starts with. -/
theorem d_head {u t : Text} (hu : u.head? = some ' ') : ∀ c ∈ (u ++ t).head?, U.d c = false := by
  intro c hc
  obtain rfl : c = ' ' := by simpa [List.head?_append, hu, eq_comm] using hc
  exact d_ascii U (by decide) (by decide)

/-- A number that is not kept, and the text after it. -/
theorem first_dec_lit {r : Rx Char} {n : Nat} {u t : Text} {m : List Text × Text}
    (hu : u.head? = some ' ') (h : r.first t = some m) :
    (Rx.seq (.many1 U.d) (.lit u r)).first (dec n ++ (u ++ t)) = some m :=
  Rx.first_seq (first_dec U (d_head U hu)) (Rx.first_lit u h)

/-- A captured number and the text after it. -/
theorem first_numRe {r : Rx Char} {n : Nat} {u t rest : Text} {gs : List Text}
    (hu : u.head? = some ' ') (h : r.first t = some (gs, rest)) :
    (numRe U (.lit u r)).first (dec n ++ (u ++ t)) = some (dec n :: gs, rest) :=
  Rx.first_seq (Rx.first_group (first_dec U (d_head U hu))) (Rx.first_lit u h)

/-- A captured decimal and the text after it. -/
theorem first_decRe {r : Rx Char} {m n : Nat} {u t rest : Text} {gs : List Text}
    (hu : u.head? = some ' ') (h : r.first t = some (gs, rest)) :
    (decRe U (.lit u r)).first ((dec m ++ (['.'] ++ dec2 n)) ++ (u ++ t)) =
      some ((dec m ++ (['.'] ++ dec2 n)) :: gs, rest) := by
  have hfrac : (Rx.many1 U.d).first (dec2 n ++ (u ++ t)) = some ([], u ++ t) :=
    first_digits U (fun _ => isDigit_of_mem_dec2) (dec2_ne_nil n) (d_head U hu)
  have hpoint := Rx.first_lit ['.'] hfrac
  have hhead : ∀ c ∈ (['.'] ++ (dec2 n ++ (u ++ t))).head?, U.d c = false := by
    intro c hc
    obtain rfl : '.' = c := by simpa using hc
    exact d_ascii U (by decide) (by decide)
  have hwhole : (Rx.many1 U.d).first (dec m ++ (['.'] ++ (dec2 n ++ (u ++ t)))) = _ :=
    first_dec U hhead
  have hboth : Rx.first (.seq (.many1 U.d) (.lit ['.'] (.many1 U.d)))
      ((dec m ++ (['.'] ++ dec2 n)) ++ (u ++ t)) = some ([], u ++ t) := by
    simpa using Rx.first_seq hwhole hpoint
  exact Rx.first_seq (Rx.first_group hboth) (Rx.first_lit u h)

end digits

/-! ## The lines are found -/

section found

variable (U : PyUnicode)

theorem first_tokenFormat (pos dt whole frac tFirst : Nat) (t : Text) :
    (serialStatsRe U).first (tokenFormat pos dt whole frac tFirst ++ t) =
      some ([dec pos, dec dt, dec whole ++ (['.'] ++ dec2 frac), dec tFirst], t) := by
  have h₁ := first_numRe U (n := tFirst) (u := " ms)".toList) rfl (Rx.first_eps t)
  have h₂ := first_decRe U (m := whole) (n := frac) (u := " tok/s (first token ".toList) rfl h₁
  have h₃ := first_numRe U (n := dt) (u := " ms = ".toList) rfl h₂
  have h₄ := first_numRe U (n := pos) (u := " tokens in ".toList) rfl h₃
  simp only [tokenFormat, List.append_assoc] at h₄ ⊢
  exact h₄

theorem byteFormat_append (total perToken whole frac : Nat) (t : Text) :
    byteFormat total perToken whole frac ++ t = "weights read ".toList ++
      (dec total ++ (" KB total, ".toList ++ (dec perToken ++ (" KB/token, effective ".toList ++
        ((dec whole ++ (['.'] ++ dec2 frac)) ++ (" MB/s".toList ++ t)))))) := by
  unfold byteFormat
  simp only [List.append_assoc]

theorem first_byteFormat (total perToken whole frac : Nat) (t : Text) :
    (serialBytesRe U).first (byteFormat total perToken whole frac ++ t) =
      some ([dec perToken, dec whole ++ (['.'] ++ dec2 frac)], t) := by
  have h₁ := first_decRe U (m := whole) (n := frac) (u := " MB/s".toList) rfl (Rx.first_eps t)
  have h₂ := first_numRe U (n := perToken) (u := " KB/token, effective ".toList) rfl h₁
  have h₃ := first_dec_lit U (n := total) (u := " KB total, ".toList) rfl h₂
  have h₄ := Rx.first_lit "weights read ".toList h₃
  rw [byteFormat_append, serialBytesRe]
  exact h₄

/-- The first line has no `w`, with which the second begins. -/
theorem notMem_tokenFormat (pos dt whole frac tFirst : Nat) :
    'w' ∉ tokenFormat pos dt whole frac tFirst := by
  intro hc
  have hdec : ∀ n, 'w' ∉ dec n := fun n h => absurd (isDigit_of_mem_dec h) (by decide)
  have hdec2 : ∀ n, 'w' ∉ dec2 n := fun n h => absurd (isDigit_of_mem_dec2 h) (by decide)
  simp [tokenFormat, hdec, hdec2] at hc

/-- So the second line is found behind a text without `w`. -/
theorem search_byteFormat {u : Text} (hu : 'w' ∉ u) (total perToken whole frac : Nat) :
    (serialBytesRe U).search (u ++ byteFormat total perToken whole frac) =
      some (u, [dec perToken, dec whole ++ (['.'] ++ dec2 frac)], []) := by
  have hskip : ∀ c ∈ u, ∀ s, (serialBytesRe U).first (c :: s) = none := by
    intro c hc s
    have hne : c ≠ 'w' := fun e => hu (e ▸ hc)
    obtain ⟨r, hr⟩ : ∃ r, serialBytesRe U = .seq (.one (· == 'w')) r := ⟨_, rfl⟩
    rw [hr]
    exact Rx.first_seq_none (Rx.first_one_ne (by simpa using hne))
  have hfound := Rx.search_here (first_byteFormat U total perToken whole frac [])
  rw [List.append_nil] at hfound
  rw [Rx.search_append hskip, hfound]
  simp

theorem GenRun.perToken_lt (g : GenRun) : g.perToken < 2 ^ 64 :=
  (Nat.div_le_self _ _).trans_lt ((Nat.div_le_self _ _).trans_lt g.read_lt)

/-- **The statistics come back as printed.** -/
theorem parseStatsSerial_footer {F : Type*} (P : PyFloat F) (g : GenRun) :
    parseStatsSerial U P (g.tokenLine ++ '\n' :: g.byteLine) = .ok (some (g.stats P)) := by
  have hw : 'w' ∉ g.tokenLine ++ ['\n'] := by
    simp [GenRun.tokenLine, notMem_tokenFormat]
  have hbytes := search_byteFormat U hw (g.read / 1024) g.perToken (g.bw / 1000) (g.bw / 10 % 100)
  rw [List.append_assoc, List.singleton_append] at hbytes
  have hpos : g.pos < 2 ^ 64 := g.pos_lt.trans (by decide)
  have hdt : g.dt < 2 ^ 64 := g.dt_lt.trans (by decide)
  have hfirst : g.tFirst < 2 ^ 64 := g.tFirst_lt.trans (by decide)
  unfold parseStatsSerial
  rw [GenRun.byteLine, hbytes, GenRun.tokenLine,
    Rx.search_here (first_tokenFormat U g.pos g.dt (g.mtps / 100) (g.mtps % 100) g.tFirst _)]
  simp only [List.getD_cons_zero, List.getD_cons_succ, int_dec U hpos, intQuotient_dec U P hdt,
    intQuotient_dec U P hfirst, intQuotient_dec U P g.perToken_lt, bind, Except.bind]
  rw [decimalPoint_dec U _ (Nat.mod_lt _ (by decide)),
    decimalPoint_dec U _ (Nat.mod_lt _ (by decide))]
  rfl

end found

end TinyLlm
