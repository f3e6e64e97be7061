/-
# `TinyLlm.Chat.Ansi` — `ANSI_RE` and the bytes withheld for it

The chat tool strips terminal control sequences from text that arrives in
pieces, so a piece may end inside one: what could still become a sequence is
withheld (`_ANSI_PARTIAL_RE`) and put in front of the next piece.

The two patterns together are a scanner with three kinds of state (`Held`):
nothing withheld, an escape, or an escape with a bracket and parameters.
`ansiCut_scan` is that fact, for a piece put behind whatever was withheld; the
scanner composes over appending (`scan_append`), and so the cleaned text does
not depend on where the pieces were cut.
-/
import TinyLlm.Lib.Regex

namespace TinyLlm

open Regex (Rx)

/-- A Python string. -/
abbrev Text := List Char

def esc : Char := '\x1b'

/-- `[0-9;]` -/
def csiParam (c : Char) : Bool := c.isDigit || c == ';'

/-- `[A-Za-z]` -/
def csiFinal (c : Char) : Bool := c.isAlpha

/-- `ANSI_RE = re.compile(r"\x1b\[[0-9;]*[A-Za-z]")` -/
def ansiRe : Rx Char := .lit [esc, '['] (.seq (.many csiParam) (.one csiFinal))

/-- `_ANSI_PARTIAL_RE = re.compile(r"\x1b(\[[0-9;]*)?\Z")` -/
def ansiPartialRe : Rx Char :=
  .lit [esc] (.seq (.opt (.group (.lit ['['] (.many csiParam)))) .eos)

/-- `m = _ANSI_PARTIAL_RE.search(raw)` and the cut at `m.start()`: what is let
through and what is withheld. -/
def ansiCut (raw : Text) : Text × Text :=
  match ansiPartialRe.search raw with
  | some m => (m.1, raw.drop m.1.length)
  | none => (raw, [])

theorem csiFinal_eq (c : Char) :
    csiFinal c =
      (decide (c.val ≥ 'A'.val ∧ c.val ≤ 'Z'.val) || (c.val ≥ 'a'.val && c.val ≤ 'z'.val)) := rfl

theorem csiFinal_of_param {c : Char} (h : csiParam c = true) : csiFinal c = false := by
  simp only [csiParam, csiFinal_eq, Char.isDigit, Bool.or_eq_true, Bool.and_eq_true, beq_iff_eq,
    decide_eq_true_eq, Bool.or_eq_false_iff, Bool.and_eq_false_iff, decide_eq_false_iff_not,
    UInt32.le_iff_toNat_le, ge_iff_le] at h ⊢
  rcases h with h | rfl
  · have : 'A'.val.toNat = 65 := rfl
    have : 'a'.val.toNat = 97 := rfl
    have : '9'.val.toNat = 57 := rfl
    omega
  · decide

theorem csiParam_of_final {f : Char} (hf : csiFinal f = true) : csiParam f = false := by
  cases hp : csiParam f with
  | false => rfl
  | true =>
      rw [csiFinal_of_param hp] at hf
      cases hf

theorem csiParam_ne_esc {c : Char} (h : csiParam c = true) : c ≠ esc := by
  rintro rfl
  exact absurd h (by decide)

theorem csiFinal_ne_esc {c : Char} (h : csiFinal c = true) : c ≠ esc := by
  rintro rfl
  exact absurd h (by decide)

/-! ## The scanner -/

/-- What is withheld at the end of a piece. -/
inductive Held where
  | clear
  | escape
  | params (ps : Text) (all : ∀ c ∈ ps, csiParam c = true)

namespace Held

def text : Held → Text
  | clear => []
  | escape => [esc]
  | params ps _ => esc :: '[' :: ps

/-- The state after a character that carries the sequence on or completes it. -/
def next : Held → Char → Option Held
  | clear, c => if c = esc then some escape else none
  | escape, c => if c = '[' then some (params [] (by simp)) else none
  | params ps all, c =>
      if h : csiParam c = true then
        some (params (ps ++ [c]) (by
          intro d hd
          rcases List.mem_append.mp hd with hd | hd
          · exact all d hd
          · exact List.mem_singleton.mp hd ▸ h))
      else if csiFinal c then some clear
      else none

/-- One character: what is let through, and what is withheld from then on.  A
character that breaks the sequence lets the withheld text go and starts afresh. -/
def scanChar (h : Held) (c : Char) : Text × Held :=
  match h.next c with
  | some h' => ([], h')
  | none =>
      match clear.next c with
      | some h' => (h.text, h')
      | none => (h.text ++ [c], clear)

def scan : Held → Text → Text × Held
  | h, [] => ([], h)
  | h, c :: s => ((h.scanChar c).1 ++ (scan (h.scanChar c).2 s).1, (scan (h.scanChar c).2 s).2)

@[simp] theorem text_clear : clear.text = [] := rfl

@[simp] theorem scan_nil (h : Held) : h.scan [] = ([], h) := rfl

theorem scan_cons (h : Held) (c : Char) (s : Text) :
    h.scan (c :: s) =
      ((h.scanChar c).1 ++ ((h.scanChar c).2.scan s).1, ((h.scanChar c).2.scan s).2) := rfl

/-- **Scanning composes.** -/
theorem scan_append : ∀ (h : Held) (s t : Text),
    h.scan (s ++ t) = ((h.scan s).1 ++ ((h.scan s).2.scan t).1, ((h.scan s).2.scan t).2) := by
  intro h s
  induction s generalizing h with
  | nil => intro t; simp
  | cons c s ih =>
      intro t
      simp only [List.cons_append, scan_cons, ih, List.append_assoc]

end Held

/-! ## The two patterns on withheld text -/

section patterns

open Held

theorem first_ansiRe_ne {c : Char} (hc : c ≠ esc) (s : Text) :
    ansiRe.first (c :: s) = none :=
  Rx.first_seq_none (Rx.first_one_ne (by simpa using hc))

theorem first_ansiPartialRe_ne {c : Char} (hc : c ≠ esc) (s : Text) :
    ansiPartialRe.first (c :: s) = none :=
  Rx.first_seq_none (Rx.first_one_ne (by simpa using hc))

/-- The withheld text is a whole match of the pattern for partial sequences. -/
theorem first_ansiPartialRe_text {h : Held} (hne : h ≠ clear) :
    ∃ gs, ansiPartialRe.first h.text = some (gs, []) := by
  cases h with
  | clear => exact absurd rfl hne
  | escape => exact ⟨[], by decide⟩
  | params ps all =>
      have hmany : Rx.first (.many csiParam) ps = some ([], []) := by
        simpa using Rx.first_many_append all (t := []) (by simp)
      have hgroup := Rx.first_group (u := '[' :: ps) (t := ([] : Text))
        (by simpa using Rx.first_lit ['['] hmany)
      have hopt : Rx.first (.opt (.group (.lit ['['] (.many csiParam)))) ('[' :: ps) =
          some (['[' :: ps], []) := Rx.first_opt (by simpa using hgroup)
      have heos : Rx.first .eos ([] : Text) = some ([], []) := rfl
      exact ⟨_, Rx.first_lit [esc] (Rx.first_seq hopt heos)⟩

theorem nil_notMem_leftovers {p : Char → Bool} {c : Char} (hc : p c = false) (u v : Text) :
    [] ∉ Rx.leftovers p (u ++ c :: v) := by
  induction u with
  | nil => simp [Rx.leftovers, hc]
  | cons a u ih =>
      simp only [List.cons_append, Rx.leftovers]
      split
      · simp [ih]
      · simp

/-- Behind a character that is no parameter the text is no partial sequence. -/
theorem first_ansiPartialRe_params (ps : Text) {c : Char} (hc : csiParam c = false) (v : Text) :
    ansiPartialRe.first (esc :: '[' :: ps ++ c :: v) = none := by
  have hnil := nil_notMem_leftovers hc ps v
  have hruns : ∀ t ∈ Rx.leftovers csiParam (ps ++ c :: v), t ≠ [] := by
    intro t ht e
    exact hnil (e ▸ ht)
  simpa [ansiPartialRe, Rx.first, Rx.runs, Rx.lit] using hruns

/-- A broken sequence matches the pattern for partial sequences no more. -/
theorem first_ansiPartialRe_break {h : Held} {c : Char} (hne : h ≠ clear) (hc : h.next c = none)
    (v : Text) : ansiPartialRe.first (h.text ++ c :: v) = none := by
  cases h with
  | clear => exact absurd rfl hne
  | escape =>
      have hc : c ≠ '[' := by
        rintro rfl
        simp [next] at hc
      simp [ansiPartialRe, Rx.first, Rx.runs, Rx.lit, text, hc]
  | params ps all =>
      have hc : csiParam c = false := by
        cases hp : csiParam c with
        | false => rfl
        | true => simp [next, hp] at hc
      exact first_ansiPartialRe_params ps hc v

/-- A whole sequence goes. -/
theorem erase_csi {ps : Text} (all : ∀ c ∈ ps, csiParam c = true) {f : Char}
    (hf : csiFinal f = true) (t : Text) :
    ansiRe.erase (esc :: '[' :: ps ++ f :: t) = ansiRe.erase t := by
  have hfp := csiParam_of_final hf
  have hmany := Rx.first_many_append all (t := f :: t) (by simpa using hfp)
  have hfirst : ansiRe.first ([esc, '['] ++ (ps ++ f :: t)) = some ([], t) :=
    Rx.first_lit [esc, '['] (Rx.first_seq hmany (Rx.first_one hf))
  have hmatch : ansiRe.first ((esc :: '[' :: (ps ++ [f])) ++ t) = some ([], t) := by
    simpa using hfirst
  simpa using Rx.erase_append (by simp) hmatch

/-- Where a sequence is broken off nothing of it is a match. -/
theorem first_ansiRe_break {h : Held} {c : Char} (hne : h ≠ clear) (hc : h.next c = none)
    {w : Text} (hw : ∀ d ∈ w.head?, d = c) : ansiRe.first (h.text ++ w) = none := by
  cases h with
  | clear => exact absurd rfl hne
  | escape =>
      have hc : c ≠ '[' := by
        rintro rfl
        simp [next] at hc
      cases w with
      | nil => decide
      | cons d w =>
          obtain rfl := hw d rfl
          simp [ansiRe, Rx.first, Rx.runs, Rx.lit, text, hc]
  | params ps all =>
      have hcp : csiParam c = false := by
        cases hp : csiParam c with
        | false => rfl
        | true => simp [next, hp] at hc
      have hcf : csiFinal c = false := by
        cases hf : csiFinal c with
        | false => rfl
        | true => simp [next, hcp, hf] at hc
      have hdrop : (ps ++ w).dropWhile csiParam = w := by
        rw [List.dropWhile_append_of_pos all]
        cases w with
        | nil => rfl
        | cons d w => obtain rfl := hw d rfl; simp [hcp]
      have htail : Rx.first (.seq (.many csiParam) (.one csiFinal)) (ps ++ w) = none := by
        rw [Rx.first_many_one (fun a => csiFinal_of_param), hdrop]
        cases w with
        | nil => rfl
        | cons d w => obtain rfl := hw d rfl; exact Rx.first_one_ne hcf
      have hruns := List.head?_eq_none_iff.mp htail
      simp only [ansiRe, Rx.first, Rx.lit, text, List.cons_append]
      rw [Rx.runs]
      simp only [Rx.runs, beq_self_eq_true, if_true, List.flatMap_cons, List.flatMap_nil,
        List.append_nil] at hruns ⊢
      rw [hruns]
      rfl

end patterns

/-! ## The cut and the scanner -/

section cut

open Held

theorem ansiCut_cons {c : Char} {s : Text} (h : ansiPartialRe.first (c :: s) = none) :
    ansiCut (c :: s) = (c :: (ansiCut s).1, (ansiCut s).2) := by
  unfold ansiCut
  rw [Rx.search_cons h]
  cases ansiPartialRe.search s with
  | none => rfl
  | some m => rfl

theorem ansiCut_append {u : Text} (hu : ∀ a ∈ u, a ≠ esc) (v : Text) :
    ansiCut (u ++ v) = (u ++ (ansiCut v).1, (ansiCut v).2) := by
  induction u with
  | nil => rfl
  | cons a u ih =>
      have ha : ansiPartialRe.first (a :: (u ++ v)) = none :=
        first_ansiPartialRe_ne (hu a (by simp)) _
      rw [List.cons_append, ansiCut_cons ha, ih (fun b hb => hu b (by simp [hb]))]
      rfl

theorem ansiCut_text (h : Held) : ansiCut h.text = ([], h.text) := by
  by_cases hne : h = clear
  · subst hne
    decide
  · obtain ⟨gs, hgs⟩ := first_ansiPartialRe_text hne
    unfold ansiCut
    rw [Rx.search_here hgs]
    rfl

theorem ansiCut_prefix (s : Text) : (ansiCut s).1 <+: s := by
  unfold ansiCut
  split
  · next m hm => exact Rx.search_prefix hm
  · exact List.prefix_rfl

theorem erase_append_of_ne_esc {u : Text} (hu : ∀ a ∈ u, a ≠ esc) (w : Text) :
    ansiRe.erase (u ++ w) = u ++ ansiRe.erase w := by
  induction u with
  | nil => rfl
  | cons a u ih =>
      have ha : ansiRe.first (a :: (u ++ w)) = none := first_ansiRe_ne (hu a (by simp)) _
      rw [List.cons_append, Rx.erase_cons ha, ih (fun b hb => hu b (by simp [hb]))]
      rfl

theorem params_ne_esc {ps : Text} (all : ∀ c ∈ ps, csiParam c = true) :
    ∀ c ∈ '[' :: ps, c ≠ esc := by
  intro c hc
  rcases List.mem_cons.mp hc with rfl | hc
  · decide
  · exact csiParam_ne_esc (all c hc)

/-- A broken sequence is let through, and the cut goes on behind it. -/
theorem ansiCut_break {h : Held} {c : Char} (hc : h.next c = none) (v : Text) :
    ansiCut (h.text ++ c :: v) = (h.text ++ (ansiCut (c :: v)).1, (ansiCut (c :: v)).2) := by
  by_cases hne : h = clear
  · subst hne
    rfl
  · have hfirst := first_ansiPartialRe_break hne hc v
    cases h with
    | clear => exact absurd rfl hne
    | escape => exact ansiCut_cons hfirst
    | params ps all =>
        have hps := ansiCut_append (params_ne_esc all) (c :: v)
        simp only [text, List.cons_append] at hfirst hps ⊢
        rw [ansiCut_cons hfirst, hps]

theorem erase_break {h : Held} {c : Char} (hc : h.next c = none) {w : Text}
    (hw : ∀ d ∈ w.head?, d = c) : ansiRe.erase (h.text ++ w) = h.text ++ ansiRe.erase w := by
  by_cases hne : h = clear
  · subst hne
    rfl
  · have hfirst := first_ansiRe_break hne hc hw
    cases h with
    | clear => exact absurd rfl hne
    | escape => exact Rx.erase_cons hfirst
    | params ps all =>
        have hps := erase_append_of_ne_esc (params_ne_esc all) w
        simp only [text, List.cons_append] at hfirst hps ⊢
        rw [Rx.erase_cons hfirst, hps]

/-- One character that carries the sequence on is withheld with it. -/
theorem text_next {h h' : Held} {c : Char} (hc : h.next c = some h') (hne : h' ≠ clear) :
    h'.text = h.text ++ [c] := by
  cases h with
  | clear =>
      simp only [next] at hc
      split at hc
      · next e => cases hc; simp [text, e]
      · cases hc
  | escape =>
      simp only [next] at hc
      split at hc
      · next e => cases hc; simp [text, e]
      · cases hc
  | params ps all =>
      simp only [next] at hc
      split at hc
      · cases hc; simp [text]
      · split at hc
        · cases hc; exact absurd rfl hne
        · cases hc

/-- What completes a sequence is its final letter. -/
theorem next_clear {h : Held} {c : Char} (hc : h.next c = some clear) :
    ∃ ps, (∀ d ∈ ps, csiParam d = true) ∧ h.text = esc :: '[' :: ps ∧ csiFinal c = true := by
  cases h with
  | clear =>
      simp only [next] at hc
      split at hc <;> cases hc
  | escape =>
      simp only [next] at hc
      split at hc <;> cases hc
  | params ps all =>
      simp only [next] at hc
      split at hc
      · cases hc
      · split at hc
        · next hf => exact ⟨ps, all, rfl, hf⟩
        · cases hc

/-- **The cut is the scanner.**  Behind withheld text, `_ANSI_PARTIAL_RE` lets
through a part that `ANSI_RE` strips to what the scanner puts out, and
withholds what the scanner withholds. -/
theorem ansiCut_scan (h : Held) (s : Text) :
    ansiRe.erase (ansiCut (h.text ++ s)).1 = (h.scan s).1 ∧
      (ansiCut (h.text ++ s)).2 = (h.scan s).2.text := by
  induction s generalizing h with
  | nil => simp [ansiCut_text]
  | cons c s ih =>
      rw [scan_cons]
      unfold scanChar
      cases hc : h.next c with
      | some h' =>
          by_cases hne : h' = clear
          · -- the sequence is complete
            subst hne
            obtain ⟨ps, all, htext, hf⟩ := next_clear hc
            have hcut : ansiCut (h.text ++ c :: s) =
                (esc :: '[' :: ps ++ c :: (ansiCut s).1, (ansiCut s).2) := by
              have hfirst := first_ansiPartialRe_params ps (csiParam_of_final hf) s
              have hps := ansiCut_append (params_ne_esc all) (c :: s)
              have hfc : ansiPartialRe.first (c :: s) = none :=
                first_ansiPartialRe_ne (csiFinal_ne_esc hf) s
              rw [htext]
              simp only [List.cons_append] at hfirst hps ⊢
              rw [ansiCut_cons hfirst, hps, ansiCut_cons hfc]
            obtain ⟨h₁, h₂⟩ := ih clear
            rw [hcut]
            exact ⟨(erase_csi all hf _).trans h₁, h₂⟩
          · have happ : h.text ++ c :: s = h'.text ++ s := by
              rw [text_next hc hne, List.append_assoc]
              rfl
            rw [happ]
            exact ih h'
      | none =>
          have hhead : ∀ d ∈ (ansiCut (c :: s)).1.head?, d = c := by
            intro d hd
            obtain ⟨t, ht⟩ := ansiCut_prefix (c :: s)
            cases hp : (ansiCut (c :: s)).1 with
            | nil => simp [hp] at hd
            | cons e p =>
                rw [hp] at hd ht
                simp at hd ht
                rw [← hd, ht.1]
          rw [ansiCut_break hc, erase_break hc hhead]
          cases hn : clear.next c with
          | some h' =>
              have hne : h' ≠ clear := by
                rintro rfl
                obtain ⟨ps, -, htext, -⟩ := next_clear hn
                cases htext
              obtain ⟨h₁, h₂⟩ := ih h'
              have happ : c :: s = h'.text ++ s := by
                rw [text_next hn hne]
                rfl
              rw [happ]
              exact ⟨by rw [h₁], h₂⟩
          | none =>
              have hce : c ≠ esc := by
                rintro rfl
                simp [next] at hn
              have hcut := ansiCut_append (u := [c]) (by simpa using hce) s
              have herase := erase_append_of_ne_esc (u := [c]) (by simpa using hce)
                (ansiCut s).1
              obtain ⟨h₁, h₂⟩ := ih clear
              simp only [List.singleton_append, text_clear, List.nil_append] at hcut herase h₁ h₂
              rw [hcut, herase, h₁]
              exact ⟨by simp, h₂⟩

/-- Over a whole text the stripped characters are those let through and those
still withheld. -/
theorem erase_scan (h : Held) (s : Text) :
    ansiRe.erase (h.text ++ s) = (h.scan s).1 ++ (h.scan s).2.text := by
  induction s generalizing h with
  | nil =>
      have hc : h.next ' ' = none := by
        cases h with
        | clear => decide
        | escape => decide
        | params ps all => rfl
      simpa using erase_break hc (w := []) (by simp)
  | cons c s ih =>
      rw [scan_cons]
      unfold scanChar
      cases hc : h.next c with
      | some h' =>
          by_cases hne : h' = clear
          · subst hne
            obtain ⟨ps, all, htext, hf⟩ := next_clear hc
            rw [htext]
            exact (erase_csi all hf s).trans (ih clear)
          · have happ : h.text ++ c :: s = h'.text ++ s := by
              rw [text_next hc hne, List.append_assoc]
              rfl
            rw [happ]
            exact ih h'
      | none =>
          rw [erase_break hc (by simp)]
          cases hn : clear.next c with
          | some h' =>
              have hne : h' ≠ clear := by
                rintro rfl
                obtain ⟨ps, -, htext, -⟩ := next_clear hn
                cases htext
              have happ : c :: s = h'.text ++ s := by
                rw [text_next hn hne]
                rfl
              rw [happ, ih h', List.append_assoc]
          | none =>
              have hce : c ≠ esc := by
                rintro rfl
                simp [next] at hn
              rw [Rx.erase_cons (first_ansiRe_ne hce s)]
              have := ih clear
              simp only [text_clear, List.nil_append] at this
              simp [this]

end cut

/-! ## Texts that scan simply -/

namespace Held

theorem scanChar_of_ne_esc {c : Char} (hc : c ≠ esc) : clear.scanChar c = ([c], clear) := by
  simp [scanChar, next, hc]

theorem scan_params {ps : Text} (all : ∀ c ∈ ps, csiParam c = true) (qs : Text)
    (hqs : ∀ c ∈ qs, csiParam c = true) {f : Char} (hf : csiFinal f = true) (s : Text) :
    (params qs hqs).scan (ps ++ f :: s) = clear.scan s := by
  induction ps generalizing qs with
  | nil =>
      have hnext : (params qs hqs).next f = some clear := by
        simp [next, csiParam_of_final hf, hf]
      simp [scan_cons, scanChar, hnext]
  | cons c ps ih =>
      have hc : csiParam c = true := all c (by simp)
      rw [List.cons_append, scan_cons]
      simp only [scanChar, next, hc, dif_pos, List.nil_append]
      exact ih (fun d hd => all d (by simp [hd])) _ _

/-- A complete control sequence is let go without a trace. -/
theorem scan_csi {ps : Text} (all : ∀ c ∈ ps, csiParam c = true) {f : Char}
    (hf : csiFinal f = true) (s : Text) :
    clear.scan (esc :: '[' :: ps ++ f :: s) = clear.scan s := by
  have hparams := scan_params all [] (by simp) hf s
  simp only [List.cons_append, scan_cons]
  simp only [scanChar, next, if_true, List.nil_append]
  exact hparams

/-- A line end lets go whatever is withheld. -/
theorem scan_break {h : Held} {c : Char} (hc : h.next c = none) (hce : c ≠ esc) (s : Text) :
    h.scan (c :: s) = (h.text ++ c :: (clear.scan s).1, (clear.scan s).2) := by
  have hn : clear.next c = none := by simp [next, hce]
  rw [scan_cons]
  simp [scanChar, hc, hn]

end Held

end TinyLlm
