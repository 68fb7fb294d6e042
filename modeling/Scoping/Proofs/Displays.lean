import Scoping.Proofs.Failures
import Scoping.Proofs.Phrases

/-!
# What is shown identifies what is meant

Types and patterns are shown in diagnostics, and never with more brackets than the ones they are
written with: an argument has parentheses but what it is applied to has none, and parentheses are
what tuples, arrows, annotations and splits have alike. Still two types that are shown alike are
alike, and so are two patterns. What is not shown cannot be told: whether a name in a type is a
constructor or a parameter and where in it the dots of its owner are, and of a pattern the ranges.

It takes that words are plain. A variable may not be shown as `_` either, which is what a wildcard
is shown as.

## Main definitions

* `TypeExpr.shown`, `Pattern.shown` — a type or a pattern without what is not shown of it
* `TypeExpr.Plain`, `Pattern.Plain` — whether all words that are shown of it are plain
* `TypeExpr.phrase`, `Pattern.phrase` — the phrase that is shown
* `TypeExpr.ofPhrase`, `Pattern.ofPhrase` — the way back

## Main results

* `TypeExpr.ofPhrase_phrase`, `Pattern.ofPhrase_phrase` — phrases lead back to what is shown
* `texts_identify` — what is shown alike is alike, in diagnostics too
-/

namespace Scoping

/-! ### Types -/

namespace TypeExpr

mutual

/-- A type without what is not shown of it: constructors and parameters are the same, and the owner
of a name is a part of its text. -/
def shown : TypeExpr → TypeExpr
  | .constructor n => .parameter ⟨n.text⟩
  | .parameter a => .parameter a
  | .apply f a => .apply f.shown a.shown
  | .arrow d c => .arrow d.shown c.shown
  | .tuple ts => .tuple (shownAll ts)

/-- The members of a list without what is not shown of them. -/
def shownAll : List TypeExpr → List TypeExpr
  | [] => []
  | t :: ts => t.shown :: shownAll ts

end

mutual

/-- The names in a type as they are shown. -/
def words : TypeExpr → List String
  | .constructor n => [n.text]
  | .parameter a => [a.text]
  | .apply f a => f.words ++ a.words
  | .arrow d c => d.words ++ c.words
  | .tuple ts => wordsAll ts

/-- The names in the members of a list. -/
def wordsAll : List TypeExpr → List String
  | [] => []
  | t :: ts => t.words ++ wordsAll ts

end

/-- Whether all names in a type are plain. -/
def Plain (t : TypeExpr) : Prop := ∀ w ∈ t.words, IsPlain w

instance (t : TypeExpr) : Decidable t.Plain :=
  decidable_of_iff (t.words.all fun w => IsPlain w) (by simp [Plain])

mutual

theorem text_shown : ∀ t : TypeExpr, t.shown.text = t.text
  | .constructor _ | .parameter _ => rfl
  | .apply f a => by rw [shown, text, text, text_shown f, text_shown a]
  | .arrow d c => by rw [shown, text, text, text_shown d, text_shown c]
  | .tuple ts => by rw [shown, text, text, texts_shownAll ts]

theorem texts_shownAll : ∀ ts : List TypeExpr, texts (shownAll ts) = texts ts
  | [] => rfl
  | t :: ts => by rw [shownAll, texts, texts, text_shown t, texts_shownAll ts]

end

mutual

/-- What is shown of a type, behind which there are more arguments. -/
def phraseWith : TypeExpr → List Phrase → Phrase
  | .constructor n, as => .word n.text as
  | .parameter a, as => .word a.text as
  | .apply f a, as => f.phraseWith (a.phraseWith [] :: as)
  | .arrow d c, as => .group .round (d.phraseWith []) [(.arrow, c.phraseWith [])] as
  | .tuple ts, as => .row .round .comma (phrases ts) as

/-- What is shown of the members of a list. -/
def phrases : List TypeExpr → List Phrase
  | [] => []
  | t :: ts => t.phraseWith [] :: phrases ts

end

/-- What is shown of a type. -/
def phrase (t : TypeExpr) : Phrase := t.phraseWith []

mutual

theorem chars_phraseWith : ∀ (t : TypeExpr) (as : List Phrase),
    (t.phraseWith as).chars = t.text.toList ++ Phrase.charsOfArguments as
  | .constructor _, _ | .parameter _, _ => rfl
  | .apply f a, as => by
    rw [phraseWith, chars_phraseWith f, Phrase.charsOfArguments, chars_phraseWith a, text]
    simp [Phrase.charsOfArguments]
  | .arrow d c, as => by
    rw [phraseWith, Phrase.chars, chars_phraseWith d, text]
    simp [Phrase.charsOfOthers, Phrase.charsOfArguments, chars_phraseWith c, Bracket.opening,
      Bracket.closing, Separator.chars]
  | .tuple ts, as => by
    rw [phraseWith, Phrase.chars_row, map_chars_phrases ts, text]
    simp [String.toList_intercalate, Bracket.opening, Bracket.closing, Separator.chars]

theorem map_chars_phrases : ∀ ts : List TypeExpr,
    (phrases ts).map Phrase.chars = (texts ts).map String.toList
  | [] => rfl
  | t :: ts => by
    rw [phrases, texts, List.map_cons, List.map_cons, map_chars_phrases ts, chars_phraseWith t,
      Phrase.charsOfArguments, List.append_nil]

end

mutual

theorem words_phraseWith : ∀ (t : TypeExpr) (as : List Phrase),
    (t.phraseWith as).words = t.words ++ Phrase.wordsOfArguments as
  | .constructor _, _ | .parameter _, _ => rfl
  | .apply f a, as => by
    rw [phraseWith, words_phraseWith f, Phrase.wordsOfArguments, words_phraseWith a, words]
    simp [Phrase.wordsOfArguments]
  | .arrow d c, as => by
    rw [phraseWith, Phrase.words, words_phraseWith d, words]
    simp [Phrase.wordsOfOthers, Phrase.wordsOfArguments, words_phraseWith c]
  | .tuple ts, as => by
    rw [phraseWith, Phrase.words_row, flatMap_words_phrases ts, words]

theorem flatMap_words_phrases : ∀ ts : List TypeExpr,
    (phrases ts).flatMap Phrase.words = wordsAll ts
  | [] => rfl
  | t :: ts => by
    rw [phrases, wordsAll, List.flatMap_cons, flatMap_words_phrases ts, words_phraseWith t,
      Phrase.wordsOfArguments, List.append_nil]

end

mutual

/-- The type that is shown as a phrase. -/
def ofPhrase : Phrase → TypeExpr
  | .word w as => (ofArguments as).foldl .apply (.parameter ⟨w⟩)
  | .labelled _ p => ofPhrase p
  | .empty _ as => (ofArguments as).foldl .apply (.tuple [])
  | .group _ d [(.arrow, c)] as => (ofArguments as).foldl .apply (.arrow (ofPhrase d) (ofPhrase c))
  | .group _ p ps as => (ofArguments as).foldl .apply (.tuple (ofPhrase p :: ofOthers ps))

/-- The types that are shown as arguments. -/
def ofArguments : List Phrase → List TypeExpr
  | [] => []
  | a :: as => ofPhrase a :: ofArguments as

/-- The types that are shown behind separators. -/
def ofOthers : List (Separator × Phrase) → List TypeExpr
  | [] => []
  | (_, p) :: ps => ofPhrase p :: ofOthers ps

end

mutual

/-- Arguments are read from the innermost one to the outermost. -/
theorem ofPhrase_phraseWith : ∀ (t : TypeExpr) (as : List Phrase),
    ofPhrase (t.phraseWith as) = (ofArguments as).foldl .apply t.shown
  | .constructor n, as => by rw [phraseWith, ofPhrase, shown]
  | .parameter a, as => by rw [phraseWith, ofPhrase, shown]
  | .apply f a, as => by
    rw [phraseWith, ofPhrase_phraseWith f, ofArguments, ofPhrase_phraseWith a, shown]
    rfl
  | .arrow d c, as => by
    rw [phraseWith, ofPhrase, ofPhrase_phraseWith d, ofPhrase_phraseWith c, shown]
    rfl
  | .tuple [], as => by rw [phraseWith, phrases, Phrase.row, ofPhrase, shown, shownAll]
  | .tuple (t :: ts), as => by
    have hothers := ofOthers_phrases ts
    rw [phraseWith, phrases, Phrase.row, ofPhrase, ofPhrase_phraseWith t, hothers, shown, shownAll]
    · rfl
    · exact Phrase.map_ne_singleton (by decide) (phrases ts)

theorem ofOthers_phrases : ∀ ts : List TypeExpr,
    ofOthers ((phrases ts).map (.comma, ·)) = shownAll ts
  | [] => rfl
  | t :: ts => by
    rw [phrases, List.map_cons, ofOthers, ofPhrase_phraseWith t, ofOthers_phrases ts, shownAll]
    rfl

end

theorem ofPhrase_phrase (t : TypeExpr) : ofPhrase t.phrase = t.shown := by
  rw [phrase, ofPhrase_phraseWith, ofArguments, List.foldl_nil]

theorem chars_phrase (t : TypeExpr) : t.phrase.chars = t.text.toList := by
  rw [phrase, chars_phraseWith, Phrase.charsOfArguments, List.append_nil]

theorem words_phrase (t : TypeExpr) : t.phrase.words = t.words := by
  rw [phrase, words_phraseWith, Phrase.wordsOfArguments, List.append_nil]

/-- Types that are shown alike are alike. -/
theorem text_eq_iff {t u : TypeExpr} (ht : t.Plain) (hu : u.Plain) :
    t.text = u.text ↔ t.shown = u.shown := by
  constructor
  · intro h
    have hchars : t.phrase.chars = u.phrase.chars := by rw [chars_phrase, chars_phrase, h]
    have hphrase : t.phrase = u.phrase := by
      refine Phrase.eq_of_chars_eq ?_ ?_ hchars
      · rwa [Phrase.Legible, words_phrase]
      · rwa [Phrase.Legible, words_phrase]
    rw [← ofPhrase_phrase, ← ofPhrase_phrase, hphrase]
  · intro h
    rw [← text_shown t, ← text_shown u, h]

end TypeExpr

/-! ### Patterns -/

/-- The range of what has none. -/
def Range.nowhere : Range := .onRow 0 0 0

/-- A value without the range it was written at. -/
def Located.unplaced {α : Type} (x : Located α) : Located α := { x with range := .nowhere }

namespace Pattern

mutual

/-- A pattern without what is not shown of it, which is its ranges and what is not shown of the
types in it. -/
def shown : Pattern → Pattern
  | .bind x => .bind x.unplaced
  | .wildcard => .wildcard
  | .tuple ps => .tuple (shownAll ps)
  | .list ps => .list (shownAll ps)
  | .struct fs => .struct (shownFields fs)
  | .typed p t => .typed p.shown t.shown
  | .split l r => .split l.shown r.shown
  | .located _ p => p.shown

/-- The members of a list without what is not shown of them. -/
def shownAll : List Pattern → List Pattern
  | [] => []
  | p :: ps => p.shown :: shownAll ps

/-- Labelled patterns without what is not shown of them. -/
def shownFields : List (Located Identifier × Pattern) → List (Located Identifier × Pattern)
  | [] => []
  | (x, p) :: fs => (x.unplaced, p.shown) :: shownFields fs

end

mutual

/-- The variables and labels in a pattern and the names in its types. -/
def words : Pattern → List String
  | .bind x => [x.value.text]
  | .wildcard => []
  | .tuple ps | .list ps => wordsAll ps
  | .struct fs => wordsFields fs
  | .typed p t => p.words ++ t.words
  | .split l r => l.words ++ r.words
  | .located _ p => p.words

/-- The words in the members of a list. -/
def wordsAll : List Pattern → List String
  | [] => []
  | p :: ps => p.words ++ wordsAll ps

/-- The labels of labelled patterns and the words in them. -/
def wordsFields : List (Located Identifier × Pattern) → List String
  | [] => []
  | (x, p) :: fs => x.value.text :: (p.words ++ wordsFields fs)

end

/-- Whether all words in a pattern are plain and no variable is shown as a wildcard is. -/
def Plain (p : Pattern) : Prop :=
  (∀ w ∈ p.words, IsPlain w) ∧ ∀ x ∈ p.boundNames, x.value.text ≠ "_"

instance (p : Pattern) : Decidable p.Plain :=
  decidable_of_iff
    ((p.words.all fun w => IsPlain w) ∧ p.boundNames.all fun x => x.value.text ≠ "_")
    (by simp [Plain])

mutual

theorem text_shown : ∀ p : Pattern, p.shown.text = p.text
  | .bind _ | .wildcard => rfl
  | .tuple ps => by rw [shown, text, text, texts_shownAll ps]
  | .list ps => by rw [shown, text, text, texts_shownAll ps]
  | .struct fs => by rw [shown, text, text, fieldTexts_shownFields fs]
  | .typed p t => by rw [shown, text, text, text_shown p, t.text_shown]
  | .split l r => by rw [shown, text, text, text_shown l, text_shown r]
  | .located _ p => by rw [shown, text, text_shown p]

theorem texts_shownAll : ∀ ps : List Pattern, texts (shownAll ps) = texts ps
  | [] => rfl
  | p :: ps => by rw [shownAll, texts, texts, text_shown p, texts_shownAll ps]

theorem fieldTexts_shownFields : ∀ fs : List (Located Identifier × Pattern),
    fieldTexts (shownFields fs) = fieldTexts fs
  | [] => rfl
  | (x, p) :: fs => by
    rw [shownFields, fieldTexts, fieldTexts, text_shown p, fieldTexts_shownFields fs]
    rfl

end

mutual

/-- What is shown of a pattern. -/
def phrase : Pattern → Phrase
  | .bind x => .word x.value.text []
  | .wildcard => .word "_" []
  | .tuple ps => .row .round .comma (phrases ps) []
  | .list ps => .row .square .comma (phrases ps) []
  | .struct fs => .row .curly .semicolon (fieldPhrases fs) []
  | .typed p t => .group .round p.phrase [(.colon, t.phrase)] []
  | .split l r => .group .round l.phrase [(.hash, r.phrase)] []
  | .located _ p => p.phrase

/-- What is shown of the members of a list. -/
def phrases : List Pattern → List Phrase
  | [] => []
  | p :: ps => p.phrase :: phrases ps

/-- What is shown of labelled patterns. -/
def fieldPhrases : List (Located Identifier × Pattern) → List Phrase
  | [] => []
  | (x, p) :: fs => .labelled x.value.text p.phrase :: fieldPhrases fs

end

mutual

theorem chars_phrase : ∀ p : Pattern, p.phrase.chars = p.text.toList
  | .bind x => by rw [phrase, text, Phrase.chars, Phrase.charsOfArguments, List.append_nil]
  | .wildcard => by rw [phrase, text, Phrase.chars, Phrase.charsOfArguments, List.append_nil]
  | .tuple ps => by
    rw [phrase, Phrase.chars_row, map_chars_phrases ps, text]
    simp [String.toList_intercalate, Phrase.charsOfArguments, Bracket.opening, Bracket.closing,
      Separator.chars]
  | .list ps => by
    rw [phrase, Phrase.chars_row, map_chars_phrases ps, text]
    simp [String.toList_intercalate, Phrase.charsOfArguments, Bracket.opening, Bracket.closing,
      Separator.chars]
  | .struct fs => by
    rw [phrase, Phrase.chars_row, map_chars_fieldPhrases fs, text]
    simp [String.toList_intercalate, Phrase.charsOfArguments, Bracket.opening, Bracket.closing,
      Separator.chars]
  | .typed p t => by
    rw [phrase, Phrase.chars, chars_phrase p, text]
    simp [Phrase.charsOfOthers, Phrase.charsOfArguments, t.chars_phrase, Bracket.opening,
      Bracket.closing, Separator.chars]
  | .split l r => by
    rw [phrase, Phrase.chars, chars_phrase l, text]
    simp [Phrase.charsOfOthers, Phrase.charsOfArguments, chars_phrase r, Bracket.opening,
      Bracket.closing, Separator.chars]
  | .located _ p => by rw [phrase, text, chars_phrase p]

theorem map_chars_phrases : ∀ ps : List Pattern,
    (phrases ps).map Phrase.chars = (texts ps).map String.toList
  | [] => rfl
  | p :: ps => by
    rw [phrases, texts, List.map_cons, List.map_cons, map_chars_phrases ps, chars_phrase p]

theorem map_chars_fieldPhrases : ∀ fs : List (Located Identifier × Pattern),
    (fieldPhrases fs).map Phrase.chars = (fieldTexts fs).map String.toList
  | [] => rfl
  | (x, p) :: fs => by
    rw [fieldPhrases, fieldTexts, List.map_cons, List.map_cons, map_chars_fieldPhrases fs,
      Phrase.chars, chars_phrase p]
    simp

end

mutual

/-- Wildcards are plain words themselves. -/
theorem legible_phrase : ∀ p : Pattern, (∀ w ∈ p.words, IsPlain w) → p.phrase.Legible
  | .bind _, h => h
  | .wildcard, _ => by
    have hwildcard : IsPlain "_" := by decide
    simpa [phrase, Phrase.Legible, Phrase.words, Phrase.wordsOfArguments] using hwildcard
  | .tuple ps, h => Phrase.legible_row .round .comma (legible_phrases ps h)
  | .list ps, h => Phrase.legible_row .square .comma (legible_phrases ps h)
  | .struct fs, h => Phrase.legible_row .curly .semicolon (legible_fieldPhrases fs h)
  | .typed p t, h => by
    obtain ⟨hp, ht⟩ := List.forall_mem_append.mp h
    have hinner := legible_phrase p hp
    rw [← t.words_phrase] at ht
    simpa [phrase, Phrase.Legible, Phrase.words, Phrase.wordsOfOthers, Phrase.wordsOfArguments]
      using List.forall_mem_append.mpr ⟨hinner, ht⟩
  | .split l r, h => by
    obtain ⟨hl, hr⟩ := List.forall_mem_append.mp h
    simpa [phrase, Phrase.Legible, Phrase.words, Phrase.wordsOfOthers, Phrase.wordsOfArguments]
      using List.forall_mem_append.mpr ⟨legible_phrase l hl, legible_phrase r hr⟩
  | .located _ p, h => legible_phrase p h

theorem legible_phrases : ∀ ps : List Pattern, (∀ w ∈ wordsAll ps, IsPlain w) →
    ∀ p ∈ phrases ps, p.Legible
  | [], _ => nofun
  | p :: ps, h => by
    obtain ⟨hp, hps⟩ := List.forall_mem_append.mp h
    exact List.forall_mem_cons.mpr ⟨legible_phrase p hp, legible_phrases ps hps⟩

theorem legible_fieldPhrases : ∀ fs : List (Located Identifier × Pattern),
    (∀ w ∈ wordsFields fs, IsPlain w) → ∀ p ∈ fieldPhrases fs, p.Legible
  | [], _ => nofun
  | (_, p) :: fs, h => by
    obtain ⟨hlabel, hrest⟩ := List.forall_mem_cons.mp h
    obtain ⟨hp, hfs⟩ := List.forall_mem_append.mp hrest
    exact List.forall_mem_cons.mpr
      ⟨List.forall_mem_cons.mpr ⟨hlabel, legible_phrase p hp⟩, legible_fieldPhrases fs hfs⟩

end

/-! #### The way back -/

/-- The labelled patterns in a struct. -/
def fields : Pattern → List (Located Identifier × Pattern)
  | .struct fs => fs
  | _ => []

/-- Patterns in brackets. In curly ones they are structs of one field. -/
def enclosed : Bracket → List Pattern → Pattern
  | .round, ps => .tuple ps
  | .square, ps => .list ps
  | .curly, ps => .struct (ps.flatMap fields)

mutual

/-- The pattern that is shown as a phrase. A labelled phrase is a struct of one field. -/
def ofPhrase : Phrase → Pattern
  | .word w _ => if w = "_" then .wildcard else .bind ⟨.nowhere, ⟨w⟩⟩
  | .labelled l p => .struct [(⟨.nowhere, ⟨l⟩⟩, ofPhrase p)]
  | .empty b _ => enclosed b []
  | .group _ p [(.colon, t)] _ => .typed (ofPhrase p) (TypeExpr.ofPhrase t)
  | .group _ l [(.hash, r)] _ => .split (ofPhrase l) (ofPhrase r)
  | .group b p ps _ => enclosed b (ofPhrase p :: ofOthers ps)

/-- The patterns that are shown behind separators. -/
def ofOthers : List (Separator × Phrase) → List Pattern
  | [] => []
  | (_, p) :: ps => ofPhrase p :: ofOthers ps

end

theorem ofOthers_map (s : Separator) (ps : List Phrase) :
    ofOthers (ps.map (s, ·)) = ps.map ofPhrase := by
  induction ps with
  | nil => rfl
  | cons p ps ih => rw [List.map_cons, ofOthers, ih, List.map_cons]

/-- What tells tuples, lists and structs is the brackets. -/
theorem ofPhrase_row (b : Bracket) (s : Separator) (hcolon : s ≠ .colon) (hhash : s ≠ .hash)
    (ps as : List Phrase) : ofPhrase (.row b s ps as) = enclosed b (ps.map ofPhrase) := by
  cases ps with
  | nil => rfl
  | cons p ps =>
    rw [Phrase.row, ofPhrase, ofOthers_map, List.map_cons]
    · exact Phrase.map_ne_singleton hcolon ps
    · exact Phrase.map_ne_singleton hhash ps

mutual

/-- A pattern is read back, but for what is not shown of it. -/
theorem ofPhrase_phrase : ∀ p : Pattern, (∀ x ∈ p.boundNames, x.value.text ≠ "_") →
    ofPhrase p.phrase = p.shown
  | .bind x, h => by
    rw [phrase, ofPhrase, if_neg (h x (List.mem_singleton_self x)), shown]
    rfl
  | .wildcard, _ => by rw [phrase, ofPhrase, if_pos rfl, shown]
  | .tuple ps, h => by
    rw [phrase, ofPhrase_row _ .comma (by decide) (by decide), enclosed, ofPhrases_phrases ps h,
      shown]
  | .list ps, h => by
    rw [phrase, ofPhrase_row _ .comma (by decide) (by decide), enclosed, ofPhrases_phrases ps h,
      shown]
  | .struct fs, h => by
    rw [phrase, ofPhrase_row _ .semicolon (by decide) (by decide), enclosed,
      fields_fieldPhrases fs h, shown]
  | .typed p t, h => by
    rw [phrase, ofPhrase, ofPhrase_phrase p h, t.ofPhrase_phrase, shown]
  | .split l r, h => by
    obtain ⟨hl, hr⟩ := List.forall_mem_append.mp h
    rw [phrase, ofPhrase, ofPhrase_phrase l hl, ofPhrase_phrase r hr, shown]
  | .located _ p, h => by rw [phrase, ofPhrase_phrase p h, shown]

theorem ofPhrases_phrases : ∀ ps : List Pattern, (∀ x ∈ boundNamesAll ps, x.value.text ≠ "_") →
    (phrases ps).map ofPhrase = shownAll ps
  | [], _ => rfl
  | p :: ps, h => by
    obtain ⟨hp, hps⟩ := List.forall_mem_append.mp h
    rw [phrases, List.map_cons, ofPhrase_phrase p hp, ofPhrases_phrases ps hps, shownAll]

theorem fields_fieldPhrases : ∀ fs : List (Located Identifier × Pattern),
    (∀ x ∈ boundNamesFields fs, x.value.text ≠ "_") →
    ((fieldPhrases fs).map ofPhrase).flatMap fields = shownFields fs
  | [], _ => rfl
  | (x, p) :: fs, h => by
    obtain ⟨hp, hfs⟩ := List.forall_mem_append.mp h
    rw [fieldPhrases, List.map_cons, List.flatMap_cons, fields_fieldPhrases fs hfs, ofPhrase,
      ofPhrase_phrase p hp, shownFields]
    rfl

end

/-- Patterns that are shown alike are alike. -/
theorem text_eq_iff {p q : Pattern} (hp : p.Plain) (hq : q.Plain) :
    p.text = q.text ↔ p.shown = q.shown := by
  constructor
  · intro h
    have hchars : p.phrase.chars = q.phrase.chars := by rw [chars_phrase, chars_phrase, h]
    have hphrase : p.phrase = q.phrase :=
      Phrase.eq_of_chars_eq (p.legible_phrase hp.1) (q.legible_phrase hq.1) hchars
    rw [← p.ofPhrase_phrase hp.2, ← q.ofPhrase_phrase hq.2, hphrase]
  · intro h
    rw [← p.text_shown, ← q.text_shown, h]

end Pattern

/-! ### Diagnostics -/

theorem Location.mem_toList {l : Location} {c : Char} (hc : c ∈ (toString l).toList) :
    c.isDigit ∨ c = ':' := by
  obtain ⟨row, column⟩ := l
  change c ∈ (toString row ++ ":" ++ toString column).toList at hc
  have hdigits (n : Nat) (hn : c ∈ Nat.toDigits 10 n) : c.isDigit :=
    Nat.isDigit_of_mem_toDigits (by decide) (by decide) hn
  rcases (by simpa using hc) with hrow | rfl | hcolumn
  · exact .inl (hdigits row hrow)
  · exact .inr rfl
  · exact .inl (hdigits column hcolumn)

/-- There is not much in what is said about a place. -/
theorem mem_atRange {range : Option Range} {c : Char} (hc : c ∈ (atRange range).toList) :
    c.isDigit ∨ c ∈ [' ', 'a', 't', ':', '-'] := by
  have hat : " at ".toList ⊆ [' ', 'a', 't', ':', '-'] := by decide
  have hdash : "-".toList ⊆ [' ', 'a', 't', ':', '-'] := by decide
  cases range with
  | none => simp [atRange] at hc
  | some range =>
    obtain ⟨start, stop⟩ := range
    change c ∈ (" at " ++ (toString start ++ "-" ++ toString stop)).toList at hc
    simp only [String.toList_append, List.mem_append] at hc
    rcases hc with hc | (hc | hc) | hc
    · exact .inr (hat hc)
    · exact (Location.mem_toList hc).imp_right fun h => by simp [h]
    · exact .inr (hdash hc)
    · exact (Location.mem_toList hc).imp_right fun h => by simp [h]

namespace DesugaringError

theorem toList_message_patternBinding (p : Pattern) (range : Option Range) :
    (patternBinding p range).message.toList =
      "internal invariant violated".toList ++ ((atRange range).toList ++ (": ".toList ++
        ("pattern binding `".toList ++ (p.text.toList ++ ("` should have been ".toList ++
          "desugared into plain bindings before naming".toList))))) := by
  have hmessage : (patternBinding p range).message =
      "internal invariant violated" ++ atRange range ++ ": pattern binding `" ++ p.text ++
        "` should have been " ++ "desugared into plain bindings before naming" := rfl
  have hcolon : ": pattern binding `".toList = ": ".toList ++ "pattern binding `".toList := rfl
  simp only [hmessage, hcolon, String.toList_append, List.append_assoc]

theorem toList_message_fixity (names : List Identifier) (range : Option Range) :
    (fixity names range).message.toList =
      "internal invariant violated".toList ++ ((atRange range).toList ++ (": ".toList ++
        ("fixity declaration for `".toList ++
          ((", ".intercalate (names.map Identifier.text)).toList ++ ("` should ".toList ++
            "have been attached to its bindings before naming".toList))))) := by
  have hmessage : (fixity names range).message =
      "internal invariant violated" ++ atRange range ++ ": fixity declaration for `" ++
        ", ".intercalate (names.map Identifier.text) ++ "` should " ++
          "have been attached to its bindings before naming" := rfl
  have hcolon : ": fixity declaration for `".toList =
      ": ".toList ++ "fixity declaration for `".toList := rfl
  simp only [hmessage, hcolon, String.toList_append, List.append_assoc]

/-- What is said next begins with a letter that is not in what is said about a place. -/
theorem eq_of_atRange_append {range range' : Option Range} {r s : List Char}
    (hr : ∀ c ∈ r.head?, c ∈ ['p', 'f']) (hs : ∀ c ∈ s.head?, c ∈ ['p', 'f'])
    (h : (atRange range).toList ++ (": ".toList ++ r) =
      (atRange range').toList ++ (": ".toList ++ s)) : r = s := by
  have hcolon : ": ".toList ⊆ [' ', 'a', 't', ':', '-'] := by decide
  have hplace (range : Option Range) :
      ∀ c ∈ (atRange range).toList ++ ": ".toList, c ∉ ['p', 'f'] := by
    intro c hc hstop
    have hplain : c.isDigit ∨ c ∈ [' ', 'a', 't', ':', '-'] := by
      rcases List.mem_append.mp hc with hc | hc
      · exact mem_atRange hc
      · exact .inr (hcolon hc)
    rcases (by simpa using hstop) with rfl | rfl
    · exact absurd hplain (by decide)
    · exact absurd hplain (by decide)
  rw [← List.append_assoc, ← List.append_assoc] at h
  exact (eq_of_append_eq_append (hplace range) (hplace range') hr hs h).2

/-- What is said of a pattern binding is not said of anything else. -/
theorem exists_of_message_eq {e : DesugaringError} {p : Pattern} {range : Option Range}
    (h : e.message = (patternBinding p range).message) :
    ∃ q range', e = patternBinding q range' ∧ q.text = p.text := by
  have hchars : e.message.toList = (patternBinding p range).message.toList := by rw [h]
  cases e with
  | patternBinding q range' =>
    rw [toList_message_patternBinding, toList_message_patternBinding] at hchars
    have hbehind := eq_of_atRange_append (by simp) (by simp) (List.append_cancel_left hchars)
    have htext := List.append_cancel_right (List.append_cancel_left hbehind)
    exact ⟨q, range', rfl, String.toList_inj.mp htext⟩
  | fixity names range' =>
    rw [toList_message_fixity, toList_message_patternBinding] at hchars
    have hbehind := eq_of_atRange_append (by simp) (by simp) (List.append_cancel_left hchars)
    simp at hbehind

end DesugaringError

/-- **Texts identify what they show.** If all words in two types are plain, the types are shown
alike just if they are alike but for which of their names are constructors and where the owners of
these end. If all words in two patterns are plain and none of their variables is shown as a
wildcard, the patterns are shown alike just if they are alike but for their ranges and for what is
not shown of the types in them. So whoever reads what is reported of a pattern binding that was left
behind knows that it is one, and knows its pattern. -/
theorem texts_identify :
    (∀ t u : TypeExpr, t.Plain → u.Plain → (t.text = u.text ↔ t.shown = u.shown)) ∧
    (∀ p q : Pattern, p.Plain → q.Plain → (p.text = q.text ↔ p.shown = q.shown)) ∧
    ∀ (d d' : Declaration) (p : Pattern) (rhs : Expr), d.unlocated = .patternBinding p rhs →
      d'.undesugared.map DesugaringError.message = d.undesugared.map DesugaringError.message →
      ∃ q rhs', d'.unlocated = .patternBinding q rhs' ∧
        (p.Plain → q.Plain → q.shown = p.shown) := by
  refine ⟨fun t u => TypeExpr.text_eq_iff, fun p q => Pattern.text_eq_iff, ?_⟩
  intro d d' p rhs hd hmessage
  have hreported : d.undesugared = some (.patternBinding p d.innermostRange) :=
    Declaration.undesugared_eq_some_iff.mpr (.patternBinding p rhs hd rfl rfl)
  rw [hreported, Option.map_some, Option.map_eq_some_iff] at hmessage
  obtain ⟨e, he, hsame⟩ := hmessage
  obtain ⟨q, range, rfl, htext⟩ := DesugaringError.exists_of_message_eq hsame
  rcases Declaration.undesugared_eq_some_iff.mp he with
    ⟨q', rhs', hd', hq, -⟩ | ⟨f, names, hd', hq, -⟩
  · obtain ⟨rfl, -⟩ := DesugaringError.patternBinding.inj hq
    exact ⟨q, rhs', hd', fun hp hq => (Pattern.text_eq_iff hq hp).mp htext⟩
  · contradiction

/-- A constructor with dots in its name and a parameter that is written like it, in a pattern and in
one with other ranges. -/
theorem texts_identify_dots :
    let parameter := TypeExpr.tuple [.parameter ⟨"k"⟩]
    let t : TypeExpr := .apply (.apply (.constructor (.qualified ⟨"A", ["B"]⟩ ⟨"t"⟩)) parameter)
      (.arrow (.parameter ⟨"k"⟩) (.tuple []))
    let u : TypeExpr := .apply (.apply (.parameter ⟨"A.B.t"⟩) parameter)
      (.arrow (.constructor (.bare ⟨"k"⟩)) (.tuple []))
    let p : Pattern := .struct [(⟨.onRow 1 1 2, ⟨"x"⟩⟩, .typed (.bind ⟨.onRow 1 3 4, ⟨"a"⟩⟩) t),
      (⟨.onRow 1 5 6, ⟨"y"⟩⟩, .split (.tuple [.wildcard]) (.list []))]
    let q : Pattern := .struct [(⟨.onRow 2 1 2, ⟨"x"⟩⟩, .typed (.bind ⟨.onRow 2 3 4, ⟨"a"⟩⟩) u),
      (⟨.onRow 2 5 6, ⟨"y"⟩⟩, .located (.onRow 2 7 8) (.split (.tuple [.wildcard]) (.list [])))]
    let d : Declaration := .located (.onRow 1 1 9) (.patternBinding p (.tuple []))
    let d' : Declaration := .located (.onRow 2 1 9) (.located (.onRow 1 1 9)
      (.patternBinding q (.literal (.int 0))))
    t.Plain ∧ u.Plain ∧ t.text = u.text ∧ t.shown = u.shown ∧
      p.Plain ∧ q.Plain ∧ p.text = q.text ∧ p.shown = q.shown ∧
      d.unlocated = .patternBinding p (.tuple []) ∧
      d'.undesugared.map DesugaringError.message = d.undesugared.map DesugaringError.message ∧
      ∃ q' rhs', d'.unlocated = .patternBinding q' rhs' ∧
        (p.Plain → q'.Plain → q'.shown = p.shown) := by
  intro parameter t u p q d d'
  have ht : t.Plain := by decide
  have hu : u.Plain := by decide
  have hp : p.Plain := by decide
  have hq : q.Plain := by decide
  have htypes : t.text = u.text := by decide
  have hpatterns : p.text = q.text := by decide
  have hd : d.unlocated = .patternBinding p (.tuple []) := rfl
  have hmessage : d'.undesugared.map DesugaringError.message =
      d.undesugared.map DesugaringError.message := by
    refine congrArg some (String.toList_inj.mp ?_)
    rw [DesugaringError.toList_message_patternBinding,
      DesugaringError.toList_message_patternBinding, hpatterns]
  exact ⟨ht, hu, htypes, (texts_identify.1 t u ht hu).mp htypes, hp, hq, hpatterns,
    (texts_identify.2.1 p q hp hq).mp hpatterns, hd, hmessage,
    texts_identify.2.2 d d' p _ hd hmessage⟩

/-- A variable that is shown as a wildcard cannot be told from one. -/
example (range : Range) : (Pattern.bind ⟨range, ⟨"_"⟩⟩).text = Pattern.wildcard.text := rfl

end Scoping
