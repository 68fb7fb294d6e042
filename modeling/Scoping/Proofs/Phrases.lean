import Mathlib.Data.List.Infix
import Scoping.Name.Basic

/-!
# Phrases

What is shown of a type or of a pattern is a phrase. A phrase begins with a word or with an opening
bracket. Inside brackets there are phrases again, with separators between them, and behind a word or
a pair of brackets there may be arguments, each in parentheses. One more form is a label with a
phrase behind it.

A phrase is read from left to right. Its beginning says whether it is a word or which brackets it
has, and wherever a part of it ends, the next two characters say whether there is an argument, a
separator or a closing bracket to come. So two texts that begin with a phrase and are the same begin
with the same phrase. All that this takes is that words are plain: they are not empty and have none
of the characters that brackets and separators begin with.

## Main definitions

* `Scoping.IsPlain` — words that can be told from what is around them
* `Scoping.Phrase`, `Phrase.chars`, `Phrase.words`
* `Scoping.Stops` — what can follow a phrase but cannot continue it

## Main results

* `Phrase.lead_eq` — how a phrase begins can be read off its text
* `Phrase.eq_of_chars_append` — unique readability
-/

namespace Scoping

/-! ### Plain words -/

/-- The characters that are not in words. -/
def delimiters : List Char := [' ', '(', ')', '[', ']', '\x7b', '\x7d', ',', ';', ':', '#']

/-- Words that can be told from what is around them. -/
def IsPlain (w : String) : Prop := w ≠ "" ∧ ∀ c ∈ w.toList, c ∉ delimiters

instance (w : String) : Decidable (IsPlain w) :=
  decidable_of_iff (w ≠ "" ∧ w.toList.all fun c => !delimiters.contains c) (by simp [IsPlain])

/-- A word that is behind the text `r` can be told from it. -/
def Ends (r : List Char) : Prop := ∀ c ∈ r.head?, c ∈ delimiters

/-- What comes before the first character of a kind can be read off a text. -/
theorem eq_of_append_eq_append {α : Type} {stops l l' r r' : List α} (hl : ∀ a ∈ l, a ∉ stops)
    (hl' : ∀ a ∈ l', a ∉ stops) (hr : ∀ a ∈ r.head?, a ∈ stops) (hr' : ∀ a ∈ r'.head?, a ∈ stops)
    (h : l ++ r = l' ++ r') : l = l' ∧ r = r' := by
  induction l generalizing l' with
  | nil =>
    cases l' with
    | nil => exact ⟨rfl, h⟩
    | cons b l' =>
      have hb : b ∈ r.head? := by
        rw [List.nil_append] at h
        simp [h]
      exact absurd (hr b hb) (hl' b (List.mem_cons_self ..))
  | cons a l ih =>
    rw [List.forall_mem_cons] at hl
    cases l' with
    | nil =>
      have ha : a ∈ r'.head? := by
        rw [List.nil_append] at h
        simp [← h]
      exact absurd (hr' a ha) hl.1
    | cons b l' =>
      rw [List.forall_mem_cons] at hl'
      obtain ⟨rfl, htail⟩ := List.cons.inj h
      obtain ⟨rfl, hrest⟩ := ih hl.2 hl'.2 htail
      exact ⟨rfl, hrest⟩

namespace IsPlain

variable {v w : String} {r s : List Char}

theorem eq_of_append (hv : IsPlain v) (hw : IsPlain w) (hr : Ends r) (hs : Ends s)
    (h : v.toList ++ r = w.toList ++ s) : v = w ∧ r = s := by
  obtain ⟨hchars, hrest⟩ := eq_of_append_eq_append hv.2 hw.2 hr hs h
  exact ⟨String.toList_inj.mp hchars, hrest⟩

/-- A plain word does not begin with a delimiter. -/
theorem append_ne_append (hw : IsPlain w) {l : List Char} (hl : ∃ c ∈ l.head?, c ∈ delimiters) :
    w.toList ++ r ≠ l ++ s := by
  intro h
  obtain ⟨c, hc, hdelimiter⟩ := hl
  obtain ⟨l, rfl⟩ := List.head?_eq_some_iff.mp hc
  cases hchars : w.toList with
  | nil => exact hw.1 (String.toList_eq_nil_iff.mp hchars)
  | cons d l' =>
    rw [hchars, List.cons_append, List.cons_append] at h
    obtain ⟨rfl, -⟩ := List.cons.inj h
    exact hw.2 d (by simp [hchars]) hdelimiter

end IsPlain

/-! ### Phrases and their texts -/

/-- A pair of brackets. There is a space inside of curly ones. -/
inductive Bracket where
  | round
  | square
  | curly
deriving DecidableEq

namespace Bracket

/-- What is written before the first phrase in brackets. -/
def opening : Bracket → List Char
  | .round => ['(']
  | .square => ['[']
  | .curly => ['\x7b', ' ']

/-- What is written behind the last phrase in brackets. -/
def closing : Bracket → List Char
  | .round => [')']
  | .square => [']']
  | .curly => [' ', '\x7d']

end Bracket

/-- What is written between two phrases in brackets. -/
inductive Separator where
  | comma
  | semicolon
  | arrow
  | colon
  | hash
deriving DecidableEq

/-- A separator as it is written. -/
def Separator.chars : Separator → List Char
  | .comma => [',', ' ']
  | .semicolon => [';', ' ']
  | .arrow => [' ', '-', '>', ' ']
  | .colon => [' ', ':', ' ']
  | .hash => [' ', '#', ' ']

/-- The parts of what is shown of a type or of a pattern. -/
inductive Phrase where
  | word (text : String) (arguments : List Phrase)
  | labelled (label : String) (content : Phrase)
  | empty (bracket : Bracket) (arguments : List Phrase)
  /-- Phrases in brackets, each but the first behind a separator. -/
  | group (bracket : Bracket) (first : Phrase) (others : List (Separator × Phrase))
    (arguments : List Phrase)

namespace Phrase

mutual

/-- The text of a phrase. -/
def chars : Phrase → List Char
  | .word w as => w.toList ++ charsOfArguments as
  | .labelled l p => l.toList ++ ':' :: ' ' :: p.chars
  | .empty b as => b.opening ++ (b.closing ++ charsOfArguments as)
  | .group b p others as =>
    b.opening ++ (p.chars ++ (charsOfOthers others ++ (b.closing ++ charsOfArguments as)))

/-- The text of arguments, each in parentheses. -/
def charsOfArguments : List Phrase → List Char
  | [] => []
  | a :: as => ' ' :: '(' :: (a.chars ++ ')' :: charsOfArguments as)

/-- The text of phrases, each behind its separator. -/
def charsOfOthers : List (Separator × Phrase) → List Char
  | [] => []
  | (s, p) :: others => s.chars ++ (p.chars ++ charsOfOthers others)

end

mutual

/-- The words and labels in a phrase. -/
def words : Phrase → List String
  | .word w as => w :: wordsOfArguments as
  | .labelled l p => l :: p.words
  | .empty _ as => wordsOfArguments as
  | .group _ p others as => p.words ++ (wordsOfOthers others ++ wordsOfArguments as)

/-- The words in arguments. -/
def wordsOfArguments : List Phrase → List String
  | [] => []
  | a :: as => a.words ++ wordsOfArguments as

/-- The words in phrases behind separators. -/
def wordsOfOthers : List (Separator × Phrase) → List String
  | [] => []
  | (_, p) :: others => p.words ++ wordsOfOthers others

end

/-- Phrases in brackets, all with the same separator between them. -/
def row (b : Bracket) (s : Separator) : List Phrase → List Phrase → Phrase
  | [], as => .empty b as
  | p :: ps, as => .group b p (ps.map (s, ·)) as

theorem append_charsOfOthers (s : Separator) (p : Phrase) (ps : List Phrase) :
    p.chars ++ charsOfOthers (ps.map (s, ·)) = s.chars.intercalate ((p :: ps).map chars) := by
  induction ps generalizing p with
  | nil => simp [charsOfOthers]
  | cons q ps ih =>
    rw [List.map_cons, charsOfOthers, ih q, List.map_cons, List.map_cons, List.map_cons,
      List.intercalate_cons_cons, List.append_assoc]

theorem chars_row (b : Bracket) (s : Separator) (ps as : List Phrase) :
    (row b s ps as).chars =
      b.opening ++ (s.chars.intercalate (ps.map chars) ++ (b.closing ++ charsOfArguments as)) := by
  cases ps with
  | nil => rfl
  | cons p ps => rw [row, chars, ← append_charsOfOthers, List.append_assoc]

/-- Of two separators only one is between the phrases. -/
theorem map_ne_singleton {s s' : Separator} (h : s ≠ s') (ps : List Phrase) (q : Phrase) :
    ps.map (s, ·) ≠ [(s', q)] := by
  cases ps <;> simp [h]

theorem wordsOfOthers_map (s : Separator) (ps : List Phrase) :
    wordsOfOthers (ps.map (s, ·)) = ps.flatMap words := by
  induction ps with
  | nil => rfl
  | cons p ps ih => rw [List.map_cons, wordsOfOthers, ih, List.flatMap_cons]

theorem words_row (b : Bracket) (s : Separator) (ps as : List Phrase) :
    (row b s ps as).words = ps.flatMap words ++ wordsOfArguments as := by
  cases ps with
  | nil => rfl
  | cons p ps => rw [row, words, wordsOfOthers_map, List.flatMap_cons, List.append_assoc]

/-- Whether all words in a phrase are plain. -/
def Legible (p : Phrase) : Prop := ∀ w ∈ p.words, IsPlain w

theorem legible_row (b : Bracket) (s : Separator) {ps : List Phrase} (h : ∀ p ∈ ps, p.Legible) :
    (row b s ps []).Legible := by
  rw [Legible, words_row, wordsOfArguments, List.append_nil]
  intro w hw
  obtain ⟨p, hp, hwp⟩ := List.mem_flatMap.mp hw
  exact h p hp w hwp

end Phrase

/-! ### Where phrases end -/

/-- The text `r` can follow a phrase but cannot continue it: no argument begins here, and it does
not make a label of the word before it. -/
def Stops (r : List Char) : Prop := Ends r ∧ ¬[' ', '('] <+: r ∧ ¬[':'] <+: r

theorem stops_nil : Stops [] := by
  simp [Stops, Ends]

theorem stops_parenthesis (r : List Char) : Stops (')' :: r) := by
  simp [Stops, Ends, delimiters]

theorem stops_closing (b : Bracket) (r : List Char) : Stops (b.closing ++ r) := by
  cases b <;> simp [Stops, Ends, delimiters, Bracket.closing]

theorem stops_separator (s : Separator) (r : List Char) : Stops (s.chars ++ r) := by
  cases s <;> simp [Stops, Ends, delimiters, Separator.chars]

theorem stops_others (others : List (Separator × Phrase)) (b : Bracket) (r : List Char) :
    Stops (Phrase.charsOfOthers others ++ (b.closing ++ r)) := by
  cases others with
  | nil => exact stops_closing b r
  | cons o others =>
    rw [Phrase.charsOfOthers, List.append_assoc]
    exact stops_separator o.1 _

theorem ends_arguments (as : List Phrase) {r : List Char} (hr : Stops r) :
    Ends (Phrase.charsOfArguments as ++ r) := by
  cases as with
  | nil => exact hr.1
  | cons a as => simp [Phrase.charsOfArguments, Ends, delimiters]

/-! ### How phrases begin -/

theorem Bracket.eq_of_opening_append {b b' : Bracket} {r s : List Char}
    (h : b.opening ++ r = b'.opening ++ s) : b = b' := by
  cases b <;> cases b' <;> simp [opening] at h ⊢

theorem Separator.eq_of_chars_append {s s' : Separator} {r r' : List Char}
    (h : s.chars ++ r = s'.chars ++ r') : s = s' := by
  cases s <;> cases s' <;> simp [chars] at h ⊢

theorem Bracket.closing_append_ne_separator (b : Bracket) (s : Separator) {r r' : List Char} :
    b.closing ++ r ≠ s.chars ++ r' := by
  cases b <;> cases s <;> simp [closing, Separator.chars]

theorem Bracket.closing_append_ne_opening (b b' : Bracket) {r s : List Char} :
    b.closing ++ r ≠ b'.opening ++ s := by
  cases b <;> cases b' <;> simp [closing, opening]

theorem Bracket.exists_opening (b : Bracket) : ∃ c ∈ b.opening.head?, c ∈ delimiters := by
  cases b <;> simp [opening, delimiters]

theorem Bracket.exists_closing (b : Bracket) : ∃ c ∈ b.closing.head?, c ∈ delimiters := by
  cases b <;> simp [closing, delimiters]

namespace Phrase

/-- The word or label at the beginning of a phrase, or the brackets that it begins with. -/
def lead : Phrase → String ⊕ Bracket
  | .word w _ | .labelled w _ => .inl w
  | .empty b _ | .group b _ _ _ => .inr b

theorem chars_eq_of_lead_word {p : Phrase} {w : String} (hlead : p.lead = .inl w) {r : List Char}
    (hr : Stops r) : w ∈ p.words ∧ ∃ x, p.chars ++ r = w.toList ++ x ∧ Ends x := by
  cases p with
  | word v as =>
    obtain rfl : v = w := Sum.inl.inj hlead
    exact ⟨by simp [words], _, by rw [chars, List.append_assoc], ends_arguments as hr⟩
  | labelled l p =>
    obtain rfl : l = w := Sum.inl.inj hlead
    exact ⟨by simp [words], _, by rw [chars, List.append_assoc], by simp [Ends, delimiters]⟩
  | empty b as => contradiction
  | group b p others as => contradiction

theorem chars_eq_of_lead_bracket {p : Phrase} {b : Bracket} (hlead : p.lead = .inr b)
    (r : List Char) : ∃ x, p.chars ++ r = b.opening ++ x := by
  cases p with
  | word v as => contradiction
  | labelled l p => contradiction
  | empty b' as =>
    obtain rfl : b' = b := Sum.inr.inj hlead
    exact ⟨_, by rw [chars, List.append_assoc]⟩
  | group b' p others as =>
    obtain rfl : b' = b := Sum.inr.inj hlead
    exact ⟨_, by rw [chars, List.append_assoc]⟩

/-- **How a phrase begins can be read off its text.** -/
theorem lead_eq {p q : Phrase} {r s : List Char} (hp : p.Legible) (hq : q.Legible) (hr : Stops r)
    (hs : Stops s) (h : p.chars ++ r = q.chars ++ s) : p.lead = q.lead := by
  cases hlead : p.lead with
  | inl v =>
    obtain ⟨hv, x, hx, hxends⟩ := chars_eq_of_lead_word hlead hr
    cases hlead' : q.lead with
    | inl w =>
      obtain ⟨hw, y, hy, hyends⟩ := chars_eq_of_lead_word hlead' hs
      rw [hx, hy] at h
      rw [((hp v hv).eq_of_append (hq w hw) hxends hyends h).1]
    | inr b =>
      obtain ⟨y, hy⟩ := chars_eq_of_lead_bracket hlead' s
      rw [hx, hy] at h
      exact absurd h ((hp v hv).append_ne_append b.exists_opening)
  | inr b =>
    obtain ⟨x, hx⟩ := chars_eq_of_lead_bracket hlead r
    cases hlead' : q.lead with
    | inl w =>
      obtain ⟨hw, y, hy, -⟩ := chars_eq_of_lead_word hlead' hs
      rw [hx, hy] at h
      exact absurd h.symm ((hq w hw).append_ne_append b.exists_opening)
    | inr b' =>
      obtain ⟨y, hy⟩ := chars_eq_of_lead_bracket hlead' s
      rw [hx, hy] at h
      rw [Bracket.eq_of_opening_append h]

/-- No phrase begins with a closing bracket. -/
theorem closing_append_ne_chars (b : Bracket) {p : Phrase} (hp : p.Legible) {r s : List Char}
    (hs : Stops s) : b.closing ++ r ≠ p.chars ++ s := by
  intro h
  cases hlead : p.lead with
  | inl w =>
    obtain ⟨hw, x, hx, -⟩ := chars_eq_of_lead_word hlead hs
    exact (hp w hw).append_ne_append b.exists_closing (h.trans hx).symm
  | inr b' =>
    obtain ⟨x, hx⟩ := chars_eq_of_lead_bracket hlead s
    exact b.closing_append_ne_opening b' (h.trans hx)

/-- No arguments make a label of the word before them. -/
theorem charsOfArguments_append_ne_colon (as : List Phrase) {r s : List Char} (hr : Stops r) :
    charsOfArguments as ++ r ≠ ':' :: s := by
  intro h
  cases as with
  | nil =>
    rw [charsOfArguments, List.nil_append] at h
    exact hr.2.2 ⟨s, h.symm⟩
  | cons a as => simp [charsOfArguments] at h

/-! ### Unique readability -/

mutual

/-- **Texts that are the same begin with the same phrase**, if they begin with phrases at all that
end in them. -/
theorem eq_of_chars_append : ∀ (p q : Phrase) {r s : List Char}, p.Legible → q.Legible → Stops r →
    Stops s → p.chars ++ r = q.chars ++ s → p = q ∧ r = s
  | .word w as, q, r, s, hp, hq, hr, hs, h => by
    -- A word and a label begin alike, and so do brackets with something and with nothing in them.
    -- What comes next tells them apart.
    have hlead := lead_eq hp hq hr hs h
    cases q with
    | word v bs =>
      obtain rfl : w = v := Sum.inl.inj hlead
      rw [chars, chars, List.append_assoc, List.append_assoc, List.append_cancel_left_eq] at h
      obtain ⟨rfl, hrest⟩ := eq_of_charsOfArguments_append as bs
        (List.forall_mem_cons.mp hp).2 (List.forall_mem_cons.mp hq).2 hr hs h
      exact ⟨rfl, hrest⟩
    | labelled l q =>
      obtain rfl : w = l := Sum.inl.inj hlead
      rw [chars, chars, List.append_assoc, List.append_assoc, List.append_cancel_left_eq] at h
      exact absurd h (charsOfArguments_append_ne_colon as hr)
    | empty b bs => contradiction
    | group b q others bs => contradiction
  | .labelled l p, q, r, s, hp, hq, hr, hs, h => by
    have hlead := lead_eq hp hq hr hs h
    cases q with
    | word w bs =>
      obtain rfl : l = w := Sum.inl.inj hlead
      rw [chars, chars, List.append_assoc, List.append_assoc, List.append_cancel_left_eq] at h
      exact absurd h.symm (charsOfArguments_append_ne_colon bs hs)
    | labelled l' q =>
      obtain rfl : l = l' := Sum.inl.inj hlead
      simp only [chars, List.append_assoc, List.append_cancel_left_eq, List.cons_append,
        List.cons.injEq, true_and] at h
      obtain ⟨rfl, hrest⟩ := eq_of_chars_append p q
        (List.forall_mem_cons.mp hp).2 (List.forall_mem_cons.mp hq).2 hr hs h
      exact ⟨rfl, hrest⟩
    | empty b bs => contradiction
    | group b q others bs => contradiction
  | .empty b as, q, r, s, hp, hq, hr, hs, h => by
    have hlead := lead_eq hp hq hr hs h
    cases q with
    | word w bs => contradiction
    | labelled l q => contradiction
    | empty b' bs =>
      obtain rfl : b = b' := Sum.inr.inj hlead
      simp only [chars, List.append_assoc, List.append_cancel_left_eq] at h
      obtain ⟨rfl, hrest⟩ := eq_of_charsOfArguments_append as bs hp hq hr hs h
      exact ⟨rfl, hrest⟩
    | group b' q others bs =>
      obtain rfl : b = b' := Sum.inr.inj hlead
      simp only [chars, List.append_assoc, List.append_cancel_left_eq] at h
      exact absurd h (closing_append_ne_chars b (List.forall_mem_append.mp hq).1
        (stops_others others b _))
  | .group b p others as, q, r, s, hp, hq, hr, hs, h => by
    have hlead := lead_eq hp hq hr hs h
    cases q with
    | word w bs => contradiction
    | labelled l q => contradiction
    | empty b' bs =>
      obtain rfl : b = b' := Sum.inr.inj hlead
      simp only [chars, List.append_assoc, List.append_cancel_left_eq] at h
      exact absurd h.symm (closing_append_ne_chars b (List.forall_mem_append.mp hp).1
        (stops_others others b _))
    | group b' q others' bs =>
      obtain rfl : b = b' := Sum.inr.inj hlead
      simp only [chars, List.append_assoc, List.append_cancel_left_eq] at h
      obtain ⟨hpwords, hrest⟩ := List.forall_mem_append.mp hp
      obtain ⟨hqwords, hrest'⟩ := List.forall_mem_append.mp hq
      obtain ⟨hothers, has⟩ := List.forall_mem_append.mp hrest
      obtain ⟨hothers', hbs⟩ := List.forall_mem_append.mp hrest'
      -- After each part the texts go on with one that stops it, so the parts are taken off in turn.
      obtain ⟨rfl, hbehind⟩ := eq_of_chars_append p q hpwords hqwords (stops_others others b _)
        (stops_others others' b _) h
      obtain ⟨rfl, harguments⟩ :=
        eq_of_charsOfOthers_append others others' b hothers hothers' hbehind
      obtain ⟨rfl, hend⟩ := eq_of_charsOfArguments_append as bs has hbs hr hs harguments
      exact ⟨rfl, hend⟩

/-- The same for arguments. Where there are no more of them no argument begins. -/
theorem eq_of_charsOfArguments_append : ∀ (as bs : List Phrase) {r s : List Char},
    (∀ w ∈ wordsOfArguments as, IsPlain w) → (∀ w ∈ wordsOfArguments bs, IsPlain w) → Stops r →
    Stops s → charsOfArguments as ++ r = charsOfArguments bs ++ s → as = bs ∧ r = s
  | [], [], r, s, _, _, _, _, h => ⟨rfl, h⟩
  | [], b :: bs, r, s, _, _, hr, _, h => absurd ⟨_, h.symm⟩ hr.2.1
  | a :: as, [], r, s, _, _, _, hs, h => absurd ⟨_, h⟩ hs.2.1
  | a :: as, b :: bs, r, s, has, hbs, hr, hs, h => by
    simp only [charsOfArguments, List.cons_append, List.append_assoc, List.cons.injEq,
      true_and] at h
    obtain ⟨ha, hothers⟩ := List.forall_mem_append.mp has
    obtain ⟨hb, hothers'⟩ := List.forall_mem_append.mp hbs
    obtain ⟨rfl, hbehind⟩ :=
      eq_of_chars_append a b ha hb (stops_parenthesis _) (stops_parenthesis _) h
    obtain ⟨rfl, hend⟩ := eq_of_charsOfArguments_append as bs hothers hothers' hr hs
      (List.cons.inj hbehind).2
    exact ⟨rfl, hend⟩

/-- The same for phrases behind separators. Where there are no more of them the brackets close. -/
theorem eq_of_charsOfOthers_append : ∀ (ps qs : List (Separator × Phrase)) (b : Bracket)
    {r s : List Char}, (∀ w ∈ wordsOfOthers ps, IsPlain w) → (∀ w ∈ wordsOfOthers qs, IsPlain w) →
    charsOfOthers ps ++ (b.closing ++ r) = charsOfOthers qs ++ (b.closing ++ s) → ps = qs ∧ r = s
  | [], [], b, r, s, _, _, h => ⟨rfl, List.append_cancel_left h⟩
  | [], (s', q) :: qs, b, r, s, _, _, h => by
    rw [charsOfOthers, charsOfOthers, List.append_assoc] at h
    exact absurd h (b.closing_append_ne_separator s')
  | (s', p) :: ps, [], b, r, s, _, _, h => by
    rw [charsOfOthers, charsOfOthers, List.append_assoc] at h
    exact absurd h.symm (b.closing_append_ne_separator s')
  | (s', p) :: ps, (t', q) :: qs, b, r, s, hps, hqs, h => by
    simp only [charsOfOthers, List.append_assoc] at h
    obtain rfl := Separator.eq_of_chars_append h
    obtain ⟨hp, hothers⟩ := List.forall_mem_append.mp hps
    obtain ⟨hq, hothers'⟩ := List.forall_mem_append.mp hqs
    obtain ⟨rfl, hbehind⟩ := eq_of_chars_append p q hp hq (stops_others ps b r)
      (stops_others qs b s) (List.append_cancel_left h)
    obtain ⟨rfl, hend⟩ := eq_of_charsOfOthers_append ps qs b hothers hothers' hbehind
    exact ⟨rfl, hend⟩

end

/-- **Unique readability.** The text of a phrase tells what phrase it is. -/
theorem eq_of_chars_eq {p q : Phrase} (hp : p.Legible) (hq : q.Legible)
    (h : p.chars = q.chars) : p = q := by
  have happend : p.chars ++ [] = q.chars ++ [] := by rw [h]
  exact (eq_of_chars_append p q hp hq stops_nil stops_nil happend).1

end Phrase

end Scoping
