import Mathlib.Data.List.Chain
import Mathlib.Logic.ExistsUnique
import PropDiagram.Proofs.Lexeme

set_option autoImplicit false

/-! # Texts of given tokens

Cutting a text forgets nothing but spaces. A text spells tokens if it consists of them with spaces
before, between and after them, where two words have at least one space between them
(`Lexeme.Spells`); brackets need none. A text spells the tokens that it is cut into
(`Lexeme.spells_tokenize`), and a text that spells tokens is cut into them
(`Lexeme.tokenize_of_spells`), because a word reaches up to the next space or bracket
(`Lexeme.cut_word_append`). -/

namespace PropDiagram

namespace Lexeme

/-! ## Pieces of a text -/

/-- A token with the number of spaces before it. -/
structure Piece where
  gap : Nat
  token : String
deriving DecidableEq, Repr

/-- Whether the second piece cannot run into the first one: there is a space between them, or one of
    them is a bracket. -/
def Piece.Apart (p q : Piece) : Prop :=
  0 < q.gap ∨ Token.isBracket p.token = true ∨ Token.isBracket q.token = true

def spaces (n : Nat) : String := String.ofList (List.replicate n ' ')

/-- The text of the pieces, with so many spaces after them. -/
def spread (last : Nat) : List Piece → String
  | [] => spaces last
  | p :: ps => spaces p.gap ++ p.token ++ spread last ps

/-- Whether the text consists of the tokens in order, with spaces before, between and after them, and
    with at least one space between two words. -/
def Spells (ts : List String) (s : String) : Prop :=
  ∃ (ps : List Piece) (last : Nat), ps.map Piece.token = ts ∧ ps.IsChain Piece.Apart ∧
    s = spread last ps

@[simp] theorem toList_spaces (n : Nat) : (spaces n).toList = List.replicate n ' ' :=
  String.toList_ofList

theorem space_append_spaces (n : Nat) : " " ++ spaces n = spaces (n + 1) := by
  apply String.toList_inj.1
  rw [String.toList_append, toList_spaces, toList_spaces, List.replicate_succ]
  rfl

theorem toList_spread_cons (last : Nat) (p : Piece) (ps : List Piece) :
    (spread last (p :: ps)).toList
      = List.replicate p.gap ' ' ++ (p.token.toList ++ (spread last ps).toList) := by
  rw [spread, String.toList_append, String.toList_append, toList_spaces, List.append_assoc]

theorem spread_cons_zero (last : Nat) (w : String) (ps : List Piece) :
    spread last (⟨0, w⟩ :: ps) = w ++ spread last ps := by
  apply String.toList_inj.1
  rw [toList_spread_cons, String.toList_append]
  rfl

/-! ## Brackets and words -/

theorem IsWhole.bracket_or_word {t : String} (h : IsWhole t) :
    Token.isBracket t = true ∨ (t.toList ≠ [] ∧ ∀ c ∈ t.toList, isWordChar c = true) := by
  rcases h with rfl | rfl | hword
  · exact Or.inl rfl
  · exact Or.inl rfl
  · exact Or.inr hword

theorem exists_toList_of_isBracket {t : String} (h : Token.isBracket t = true) :
    ∃ c, t.toList = [c] ∧ isWordChar c = false := by
  rw [Token.isBracket, Bool.or_eq_true, beq_iff_eq, beq_iff_eq] at h
  rcases h with rfl | rfl
  · exact ⟨'(', rfl, rfl⟩
  · exact ⟨')', rfl, rfl⟩

theorem isBracket_of_separator {c : Char} (hc : isWordChar c = false) (hspace : c ≠ ' ') :
    Token.isBracket (String.singleton c) = true := by
  rcases eq_bracket_of_separator hc hspace with rfl | rfl
  · rfl
  · rfl

/-! ## A text spells its tokens -/

/-- A separator put before a text gives pieces that no word before them runs into. -/
theorem Spells.exists_pieces {ts : List String} {s : String} (h : Spells ts s) {c : Char}
    (hc : isWordChar c = false) :
    ∃ (ps : List Piece) (last : Nat), ps.map Piece.token = separatorText c ++ ts ∧
      String.singleton c ++ s = spread last ps ∧ ∀ w, (⟨0, w⟩ :: ps).IsChain Piece.Apart := by
  obtain ⟨ps, last, rfl, hchain, rfl⟩ := h
  by_cases hspace : c = ' '
  · subst hspace
    -- The space makes the first gap longer, or the one at the end.
    cases ps with
    | nil => exact ⟨[], last + 1, rfl, space_append_spaces last, fun w => .singleton _⟩
    | cons p ps =>
        refine ⟨⟨p.gap + 1, p.token⟩ :: ps, last, rfl, ?_, fun w => ?_⟩
        · rw [spread, spread, ← space_append_spaces]
          simp only [String.append_assoc]
          rfl
        · refine .cons_cons (Or.inl (Nat.succ_pos _)) ?_
          cases hchain with
          | singleton => exact .singleton _
          | cons_cons happart hrest => exact .cons_cons happart hrest
  · have hbracket := isBracket_of_separator hc hspace
    refine ⟨⟨0, String.singleton c⟩ :: ps, last, ?_, (spread_cons_zero ..).symm, fun w => ?_⟩
    · rw [separatorText, if_neg hspace]
      rfl
    · refine .cons_cons (Or.inr (Or.inr hbracket)) ?_
      cases ps with
      | nil => exact .singleton _
      | cons p ps => exact .cons_cons (Or.inr (Or.inl hbracket)) hchain

theorem Spells.separator {ts : List String} {s : String} (h : Spells ts s) {c : Char}
    (hc : isWordChar c = false) : Spells (separatorText c ++ ts) (String.singleton c ++ s) := by
  obtain ⟨ps, last, hps, hs, hchain⟩ := h.exists_pieces hc
  exact ⟨ps, last, hps, (hchain "").tail, hs⟩

theorem Spells.token {ts : List String} {s : String} (h : Spells ts s) {c : Char}
    (hc : isWordChar c = false) (w : String) :
    Spells (w :: (separatorText c ++ ts)) (w ++ (String.singleton c ++ s)) := by
  obtain ⟨ps, last, hps, hs, hchain⟩ := h.exists_pieces hc
  exact ⟨⟨0, w⟩ :: ps, last, by rw [List.map_cons, hps], hchain w, by rw [hs, spread_cons_zero]⟩

theorem spells_nil : Spells [] "" := ⟨[], 0, rfl, .nil, rfl⟩

theorem spells_singleton (w : String) : Spells [w] w := by
  refine ⟨[⟨0, w⟩], 0, rfl, .singleton _, ?_⟩
  rw [spread_cons_zero]
  exact String.append_empty.symm

/-- The characters read so far and those to come spell the tokens that come of them. -/
theorem spells_cut (word cs : List Char) :
    Spells (cut word cs) (String.ofList (word.reverse ++ cs)) := by
  induction cs generalizing word with
  | nil =>
      rw [cut, flushedText, List.append_nil]
      by_cases hword : word.isEmpty = true
      · rw [if_pos hword, List.isEmpty_iff.1 hword]
        exact spells_nil
      · rw [if_neg hword]
        exact spells_singleton _
  | cons c cs ih =>
      rw [cut]
      by_cases hc : isWordChar c = true
      · rw [if_pos hc]
        simpa using ih (c :: word)
      · rw [Bool.not_eq_true] at hc
        have hrest : Spells (cut [] cs) (String.ofList cs) := ih []
        have htext : String.ofList (word.reverse ++ c :: cs)
            = String.ofList word.reverse ++ (String.singleton c ++ String.ofList cs) := by
          apply String.toList_inj.1
          simp
        rw [if_neg (by simp [hc]), htext, flushedText]
        by_cases hword : word.isEmpty = true
        · have hempty : String.ofList ([] : List Char).reverse = "" := rfl
          rw [if_pos hword, List.isEmpty_iff.1 hword, hempty, String.empty_append]
          exact hrest.separator hc
        · rw [if_neg hword]
          exact hrest.token hc _

theorem spells_tokenize (s : String) : Spells (tokenize s) s := by
  have h := spells_cut [] s.toList
  rwa [List.reverse_nil, List.nil_append, String.ofList_toList, ← tokenize_eq_cut] at h

/-! ## What spells tokens is cut into them -/

theorem cut_spaces_append (n : Nat) (cs : List Char) :
    cut [] (List.replicate n ' ' ++ cs) = cut [] cs := by
  induction n with
  | zero => rfl
  | succ n ih =>
      rw [List.replicate_succ, List.cons_append, cut, if_neg (by decide), ih]
      rfl

theorem cut_bracket_append {t : String} (ht : Token.isBracket t = true) (cs : List Char) :
    cut [] (t.toList ++ cs) = t :: cut [] cs := by
  rw [Token.isBracket, Bool.or_eq_true, beq_iff_eq, beq_iff_eq] at ht
  rcases ht with rfl | rfl <;> rfl

/-- A word reaches as far as its characters do. -/
theorem cut_word_append {ws : List Char} (hne : ws ≠ []) (hws : ∀ c ∈ ws, isWordChar c = true)
    {cs : List Char} (hcs : ∀ c, cs.head? = some c → isWordChar c = false) :
    cut [] (ws ++ cs) = String.ofList ws :: cut [] cs := by
  have hword : cut [] ws = [String.ofList ws] := by
    rw [cut_of_word [] hws, List.append_nil, flushedText, List.reverse_reverse]
    exact if_neg (by simpa using hne)
  cases cs with
  | nil => rw [List.append_nil, hword]; rfl
  | cons c cs =>
      have hc := hcs c rfl
      rw [cut_append_separator [] ws hc, hword, cut, if_neg (by simp [hc])]
      rfl

/-- What follows a word does not go on with it. -/
theorem separator_of_apart {p : Piece} {ps : List Piece} (hchain : (p :: ps).IsChain Piece.Apart)
    (hp : Token.isBracket p.token = false) (last : Nat) {c : Char}
    (hc : (spread last ps).toList.head? = some c) : isWordChar c = false := by
  cases hchain with
  | singleton =>
      rw [spread, toList_spaces] at hc
      cases last with
      | zero => cases hc
      | succ n =>
          cases hc
          rfl
  | @cons_cons _ q ps hapart hrest =>
      rw [toList_spread_cons] at hc
      cases hgap : q.gap with
      | zero =>
          have hq : Token.isBracket q.token = true := by
            simpa [Piece.Apart, hgap, hp] using hapart
          obtain ⟨b, hb, hseparator⟩ := exists_toList_of_isBracket hq
          rw [hgap, hb] at hc
          cases hc
          exact hseparator
      | succ n =>
          rw [hgap] at hc
          cases hc
          rfl

theorem cut_spread {ps : List Piece} (hps : ∀ p ∈ ps, IsWhole p.token)
    (hchain : ps.IsChain Piece.Apart) (last : Nat) :
    cut [] (spread last ps).toList = ps.map Piece.token := by
  induction ps with
  | nil =>
      rw [spread, toList_spaces, List.map_nil, cut_eq_nil_iff]
      exact ⟨rfl, fun c hc => List.eq_of_mem_replicate hc⟩
  | cons p ps ih =>
      obtain ⟨hp, hrest⟩ := List.forall_mem_cons.1 hps
      rw [toList_spread_cons, cut_spaces_append, List.map_cons, ← ih hrest hchain.tail]
      cases hbracket : Token.isBracket p.token with
      | true => exact cut_bracket_append hbracket _
      | false =>
          obtain ⟨hne, hword⟩ := hp.bracket_or_word.resolve_left (by simp [hbracket])
          rw [cut_word_append hne hword fun c => separator_of_apart hchain hbracket last,
            String.ofList_toList]

theorem tokenize_of_spells {ts : List String} {s : String} (hts : ∀ t ∈ ts, IsWhole t)
    (h : Spells ts s) : tokenize s = ts := by
  obtain ⟨ps, last, rfl, hchain, rfl⟩ := h
  rw [tokenize_eq_cut]
  exact cut_spread (fun p hp => hts _ (List.mem_map_of_mem hp)) hchain last

/-! ## Tokens joined by spaces -/

theorem spells_intercalate (ts : List String) : Spells ts (" ".intercalate ts) := by
  induction ts with
  | nil => exact spells_nil
  | cons t ts ih =>
      cases ts with
      | nil => rw [String.intercalate_singleton]; exact spells_singleton t
      | cons u ts =>
          rw [String.intercalate_cons_cons, String.append_assoc]
          exact ih.token (c := ' ') rfl t

/-- **Cutting a text undoes spacing tokens.** A text is cut into given tokens exactly if each of them
    is a bracket or a word and the text spells them: it consists of them with any number of spaces
    before, between and after them, and with at least one between two words. So every text spells
    exactly one list of brackets and words; and cutting the tokens of a text joined by spaces gives
    these tokens again. -/
theorem tokenize_eq_iff_spells (s : String) :
    (∀ ts, tokenize s = ts ↔ (∀ t ∈ ts, IsWhole t) ∧ Spells ts s) ∧
    (∃! ts, (∀ t ∈ ts, IsWhole t) ∧ Spells ts s) ∧
    tokenize (" ".intercalate (tokenize s)) = tokenize s := by
  have hwhole : ∀ t ∈ tokenize s, IsWhole t := by
    intro t ht
    rw [tokenize_eq_cut] at ht
    exact isWhole_of_mem_cut (by simp) ht
  refine ⟨fun ts => ⟨?_, fun h => tokenize_of_spells h.1 h.2⟩, ?_, ?_⟩
  · rintro rfl
    exact ⟨hwhole, spells_tokenize s⟩
  · exact ⟨tokenize s, ⟨hwhole, spells_tokenize s⟩, fun ts h => (tokenize_of_spells h.1 h.2).symm⟩
  · exact tokenize_of_spells hwhole (spells_intercalate _)

end Lexeme

end PropDiagram
