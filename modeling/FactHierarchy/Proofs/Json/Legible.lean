import FactHierarchy.Json.Lexer
import FactHierarchy.Json.Printer

/-!
# Tokens that are read as they are written

The lexer finds out where a name or number ends only from the character behind it. So a sequence of
tokens is *legible* (`Token.Legible`) when the lexer comes to it from its characters, the last token
possibly being still open. A scalar is legible by itself (`Token.legible_scalar`), and sequences
with a mark between them are legible together (`Token.Legible.append_mark`), which is how all values
are written. What is legible is found by the lexer (`Token.Legible.ofText?_eq`).

A string comes back from its quotes character by character. Each character is written as an
escape by a letter, as an escape by its code or as it is (`jsonEscapeChar_cases`), and the lexer and
the decoder deal with these three cases.
-/

set_option autoImplicit false

namespace FactHierarchy

variable {tokens ts us : List Token} {read cs ds rest : List Char}

/-! ## Strings -/

/-- **How a character is written between quotes**: by a letter behind a backslash, by its code, or
as it is. -/
theorem jsonEscapeChar_cases (c : Char) :
    (∃ e, jsonEscapeChar c = ['\\', e] ∧ e ≠ 'u' ∧ letterEscape? e = some c) ∨
    (jsonEscapeChar c = codeEscape c ∧ c.toNat < 0x20) ∨
    (jsonEscapeChar c = [c] ∧ c ≠ '"' ∧ c ≠ '\\' ∧ ¬c.toNat < 0x20) := by
  by_cases hquote : c = '"'
  · exact .inl ⟨'"', by rw [hquote]; rfl, by decide, by rw [hquote]; rfl⟩
  by_cases hbackslash : c = '\\'
  · exact .inl ⟨'\\', by rw [hbackslash]; rfl, by decide, by rw [hbackslash]; rfl⟩
  by_cases hn : c = '\n'
  · exact .inl ⟨'n', by rw [hn]; rfl, by decide, by rw [hn]; rfl⟩
  by_cases hr : c = '\r'
  · exact .inl ⟨'r', by rw [hr]; rfl, by decide, by rw [hr]; rfl⟩
  by_cases ht : c = '\t'
  · exact .inl ⟨'t', by rw [ht]; rfl, by decide, by rw [ht]; rfl⟩
  by_cases hb : c = '\x08'
  · exact .inl ⟨'b', by rw [hb]; rfl, by decide, by rw [hb]; rfl⟩
  by_cases hf : c = '\x0c'
  · exact .inl ⟨'f', by rw [hf]; rfl, by decide, by rw [hf]; rfl⟩
  rw [jsonEscapeChar, if_neg hquote, if_neg hbackslash, if_neg hn, if_neg hr, if_neg ht, if_neg hb,
    if_neg hf]
  by_cases hlow : c.toNat < 0x20
  · exact .inr (.inl ⟨if_pos hlow, hlow⟩)
  · exact .inr (.inr ⟨if_neg hlow, hquote, hbackslash, hlow⟩)

theorem hexCode?_hexDigit : ∀ n < 0x20,
    hexCode? '0' '0' (hexDigit (n / 16)) (hexDigit (n % 16)) = some n := by
  decide

theorem hexDigit_ne : ∀ n < 16, hexDigit n ≠ '"' ∧ hexDigit n ≠ '\\' := by decide

/-- **The decoder reads back a character that is written.** -/
theorem stringPieces_escape (done : List StringPiece) (c : Char) (rest : List Char) :
    stringPieces done (jsonEscapeChar c ++ rest) = stringPieces (.char c :: done) rest := by
  rcases jsonEscapeChar_cases c with ⟨e, hchars, hu, hletter⟩ | ⟨hchars, hlow⟩ |
    ⟨hchars, hquote, hbackslash, hlow⟩
  · rw [hchars]
    show stringPieces done ('\\' :: e :: rest) = _
    rw [stringPieces, hletter]
    intro a b c d rest' he
    exact absurd he hu
  · rw [hchars]
    show stringPieces done ('\\' :: 'u' :: '0' :: '0' :: hexDigit (c.toNat / 16) ::
      hexDigit (c.toNat % 16) :: rest) = _
    have hpiece : codePiece c.toNat = .char c := by
      rw [codePiece, if_neg (by omega), Char.ofNat_toNat]
    rw [stringPieces, hexCode?_hexDigit _ hlow]
    dsimp only
    rw [hpiece]
  · rw [hchars]
    show stringPieces done (c :: rest) = _
    rw [stringPieces, if_neg (not_or.2 ⟨hlow, hbackslash⟩)]
    · intro a b c d rest' h
      exact absurd h hbackslash
    · intro e rest' h
      exact absurd h hbackslash

theorem stringPieces_flatMap (done : List StringPiece) (text : List Char) :
    stringPieces done (text.flatMap jsonEscapeChar) =
      some (done.reverse ++ text.map .char) := by
  induction text generalizing done with
  | nil => rw [List.map_nil, List.append_nil]; rfl
  | cons c text ih =>
      rw [List.flatMap_cons, stringPieces_escape, ih, List.reverse_cons, List.append_assoc]
      rfl

theorem joinPieces_char (done text : List Char) :
    joinPieces done (text.map .char) = some (String.ofList (done.reverse ++ text)) := by
  induction text generalizing done with
  | nil => rw [List.append_nil]; rfl
  | cons c text ih =>
      rw [List.map_cons, joinPieces, ih, List.reverse_cons, List.append_assoc]
      rfl

/-- A text comes back from what stands between its quotes. -/
theorem unquote?_escape (text : String) :
    unquote? (text.toList.flatMap jsonEscapeChar) = some (.string (some text)) := by
  rw [unquote?, stringPieces_flatMap, Option.map_some, List.reverse_nil, List.nil_append,
    joinPieces_char, List.reverse_nil, List.nil_append, String.ofList_toList]

/-! ## Reading item by item -/

/-- A machine that reads the items one by one comes from the one state to the other. -/
def Reads {σ α : Type} (step : σ → α → Option σ) (s : σ) (l : List α) (s' : σ) : Prop :=
  l.foldlM step s = some s'

section Reads

variable {σ α : Type} {step : σ → α → Option σ} {s s' s'' : σ} {a : α} {l l' : List α}

theorem reads_nil (step : σ → α → Option σ) (s : σ) : Reads step s [] s := rfl

theorem reads_singleton (h : step s a = some s') : Reads step s [a] s' := by
  rw [Reads, List.foldlM_cons, h]
  rfl

theorem Reads.append (h : Reads step s l s') (h' : Reads step s' l' s'') :
    Reads step s (l ++ l') s'' := by
  rw [Reads, List.foldlM_append, show l.foldlM step s = some s' from h]
  exact h'

theorem Reads.cons (h : step s a = some s') (h' : Reads step s' l s'') :
    Reads step s (a :: l) s'' := (reads_singleton h).append h'

end Reads

namespace Lexer

variable {s : Lexer}

/-! ## In a string -/

theorem step_quoted {c : Char} (hquote : c ≠ '"') (hbackslash : c ≠ '\\') :
    step ⟨tokens, .quoted read false⟩ c = some ⟨tokens, .quoted (c :: read) false⟩ := by
  rw [step]
  dsimp only
  rw [if_neg hquote, beq_false_of_ne hbackslash]

/-- A character that is written between quotes does not end the string. -/
theorem reads_escape (tokens : List Token) (read : List Char) (c : Char) :
    Reads step ⟨tokens, .quoted read false⟩ (jsonEscapeChar c)
      ⟨tokens, .quoted ((jsonEscapeChar c).reverse ++ read) false⟩ := by
  rcases jsonEscapeChar_cases c with ⟨e, hchars, -, -⟩ | ⟨hchars, hlow⟩ |
    ⟨hchars, hquote, hbackslash, -⟩
  · rw [hchars]
    rfl
  · rw [hchars]
    obtain ⟨hquote, hbackslash⟩ := hexDigit_ne (c.toNat / 16) (by omega)
    obtain ⟨hquote', hbackslash'⟩ := hexDigit_ne (c.toNat % 16) (by omega)
    exact .cons rfl (.cons rfl (.cons rfl (.cons rfl (.cons (step_quoted hquote hbackslash)
      (reads_singleton (step_quoted hquote' hbackslash'))))))
  · rw [hchars]
    exact reads_singleton (step_quoted hquote hbackslash)

theorem reads_flatMap_escape (tokens : List Token) (read text : List Char) :
    Reads step ⟨tokens, .quoted read false⟩ (text.flatMap jsonEscapeChar)
      ⟨tokens, .quoted ((text.flatMap jsonEscapeChar).reverse ++ read) false⟩ := by
  induction text generalizing read with
  | nil => exact reads_nil _ _
  | cons c text ih =>
      rw [List.flatMap_cons, List.reverse_append, List.append_assoc]
      exact (reads_escape tokens read c).append (ih _)

/-- **A text in quotes is read as a string.** -/
theorem reads_quote (tokens : List Token) (text : String) :
    Reads step ⟨tokens, .between⟩ (quote text)
      ⟨.scalar (.string (some text)) :: tokens, .between⟩ := by
  rw [quote, List.cons_append]
  refine .cons rfl ((reads_flatMap_escape tokens [] text.toList).append ?_)
  refine reads_singleton ?_
  rw [step]
  dsimp only
  rw [if_pos rfl, List.append_nil, List.reverse_reverse, unquote?_escape]
  rfl

/-! ## Names and numbers -/

theorem ne_of_isBareChar {c d : Char} (hc : isBareChar c = true) (hd : isBareChar d = false) :
    c ≠ d := by
  rintro rfl
  rw [hc] at hd
  cases hd

theorem mark?_eq_none {c : Char} (hc : isBareChar c = true) : mark? c = none := by
  rw [mark?] <;> exact ne_of_isBareChar hc rfl

theorem isJsonSpace_eq_false {c : Char} (hc : isBareChar c = true) : isJsonSpace c = false := by
  rw [isJsonSpace, beq_false_of_ne (ne_of_isBareChar hc rfl),
    beq_false_of_ne (ne_of_isBareChar hc rfl), beq_false_of_ne (ne_of_isBareChar hc rfl),
    beq_false_of_ne (ne_of_isBareChar hc rfl)]
  rfl

theorem start?_of_isBareChar {c : Char} (hc : isBareChar c = true) :
    start? tokens c = some ⟨tokens, .bare [c]⟩ := by
  rw [start?, mark?_eq_none hc]
  dsimp only
  rw [isJsonSpace_eq_false hc, if_neg Bool.false_ne_true, if_neg (ne_of_isBareChar hc rfl),
    if_pos hc]

theorem reads_bare_of_bare (hcs : cs.all isBareChar = true) :
    Reads step ⟨tokens, .bare read⟩ cs ⟨tokens, .bare (cs.reverse ++ read)⟩ := by
  induction cs generalizing read with
  | nil => exact reads_nil _ _
  | cons c cs ih =>
      rw [List.all_cons, Bool.and_eq_true] at hcs
      obtain ⟨hc, hcs⟩ := hcs
      rw [List.reverse_cons, List.append_assoc]
      refine .cons ?_ (ih hcs)
      rw [step]
      exact if_pos hc

/-- Characters that can stand in a name or number are read as far as they go. -/
theorem reads_bare (hne : cs ≠ []) (hcs : cs.all isBareChar = true) :
    Reads step ⟨tokens, .between⟩ cs ⟨tokens, .bare cs.reverse⟩ := by
  cases cs with
  | nil => exact absurd rfl hne
  | cons c cs =>
      rw [List.all_cons, Bool.and_eq_true] at hcs
      obtain ⟨hc, hcs⟩ := hcs
      rw [List.reverse_cons]
      exact .cons (start?_of_isBareChar hc) (reads_bare_of_bare hcs)

theorem all_isBareChar_cons {c : Char} (hc : isBareChar c = true)
    (hcs : cs.all isBareChar = true) : (c :: cs).all isBareChar = true := by
  rw [List.all_cons, hc, hcs]
  rfl

theorem all_isBareChar_of_skipDigits? (h : skipDigits? cs = some rest)
    (hrest : rest.all isBareChar = true) : cs.all isBareChar = true := by
  rw [skipDigits?] at h
  split at h
  · cases h
  · obtain rfl := Option.some.inj h
    rw [← List.takeWhile_append_dropWhile (p := Char.isDigit) (l := cs), List.all_append,
      Bool.and_eq_true]
    refine ⟨List.all_eq_true.2 fun c hc => ?_, hrest⟩
    have hdigit : c.isDigit = true := List.all_eq_true.1 List.all_takeWhile c hc
    rw [isBareChar, Char.isAlphanum, hdigit, Bool.or_true, Bool.true_or, Bool.true_or,
      Bool.true_or]

theorem all_isBareChar_of_skipWhole? (h : skipWhole? cs = some rest)
    (hrest : rest.all isBareChar = true) : cs.all isBareChar = true := by
  rw [skipWhole?.eq_def] at h
  split at h
  · obtain rfl := Option.some.inj h
    exact all_isBareChar_cons rfl hrest
  · exact all_isBareChar_of_skipDigits? h hrest

theorem all_isBareChar_of_skipFraction? (h : skipFraction? cs = some rest)
    (hrest : rest.all isBareChar = true) : cs.all isBareChar = true := by
  rw [skipFraction?.eq_def] at h
  split at h
  · exact all_isBareChar_cons rfl (all_isBareChar_of_skipDigits? h hrest)
  · obtain rfl := Option.some.inj h
    exact hrest

theorem all_isBareChar_of_skipExponent? (h : skipExponent? cs = some rest)
    (hrest : rest.all isBareChar = true) : cs.all isBareChar = true := by
  rw [skipExponent?.eq_def] at h
  split at h
  · next c cs =>
    split at h
    · next hletter =>
      have hc : isBareChar c = true := by
        rcases hletter with rfl | rfl <;> rfl
      refine all_isBareChar_cons hc ?_
      split at h
      · exact all_isBareChar_cons rfl (all_isBareChar_of_skipDigits? h hrest)
      · exact all_isBareChar_cons rfl (all_isBareChar_of_skipDigits? h hrest)
      · exact all_isBareChar_of_skipDigits? h hrest
    · obtain rfl := Option.some.inj h
      exact hrest
  · rfl

/-- No character of a number ends it. -/
theorem all_isBareChar_of_isNumber (h : isNumber cs = true) : cs.all isBareChar = true := by
  have hunsigned : ∀ cs, ((skipWhole? cs).bind skipFraction?).bind skipExponent? = some [] →
      cs.all isBareChar = true := by
    intro cs h
    obtain ⟨exponent, h, hexponent⟩ := Option.bind_eq_some_iff.1 h
    obtain ⟨fraction, hwhole, hfraction⟩ := Option.bind_eq_some_iff.1 h
    exact all_isBareChar_of_skipWhole? hwhole (all_isBareChar_of_skipFraction? hfraction
      (all_isBareChar_of_skipExponent? hexponent rfl))
  rw [isNumber.eq_def] at h
  dsimp only at h
  split at h
  · exact all_isBareChar_cons rfl (hunsigned _ (eq_of_beq h))
  · exact hunsigned _ (eq_of_beq h)

theorem ne_of_isNumber (h : isNumber cs = true) (hds : isNumber ds = false) : cs ≠ ds := by
  rintro rfl
  rw [h] at hds
  cases hds

/-- A number is read as it is written. -/
theorem bareScalar?_of_isNumber (h : isNumber cs = true) :
    bareScalar? cs = some (.number (String.ofList cs)) := by
  rw [bareScalar?, if_neg (ne_of_isNumber h (by decide)), if_neg (ne_of_isNumber h (by decide)),
    if_neg (ne_of_isNumber h (by decide)), if_pos h]

/-! ## Tokens that are held -/

/-- The lexer has read the tokens, the latest first. Where the latest one is a name or a number, it
may still be open. -/
inductive Holds : Lexer → List Token → Prop where
  | between (tokens : List Token) : Holds ⟨tokens, .between⟩ tokens
  | bare (tokens : List Token) {read : List Char} {value : Scalar}
    (h : bareScalar? read.reverse = some value) :
    Holds ⟨tokens, .bare read⟩ (.scalar value :: tokens)

theorem Holds.finish_eq (h : s.Holds tokens) : s.finish = some tokens.reverse := by
  cases h with
  | between => rfl
  | bare tokens hvalue =>
      rw [finish]
      dsimp only
      rw [hvalue]
      rfl

theorem chars_of_mark? {c : Char} {t : Token} (h : mark? c = some t) :
    t.chars = [c] ∧ isBareChar c = false := by
  rw [mark?.eq_def] at h
  split at h
  case h_7 => cases h
  all_goals
    obtain rfl := Option.some.inj h
    exact ⟨rfl, rfl⟩

/-- A mark ends the token before it. -/
theorem Holds.step_mark {c : Char} {t : Token} (h : s.Holds tokens) (hmark : mark? c = some t) :
    s.step c = some ⟨t :: tokens, .between⟩ := by
  cases h with
  | between =>
      rw [step]
      dsimp only
      rw [start?, hmark]
  | bare tokens hvalue =>
      rw [step]
      dsimp only
      rw [(chars_of_mark? hmark).2, if_neg Bool.false_ne_true, hvalue, Option.bind_some, start?,
        hmark]

end Lexer

/-! ## Legible tokens -/

/-- The scalar can be written: if it is a number, it is written as one. -/
def Scalar.WellFormed : Scalar → Prop
  | .number digits => isNumber digits.toList = true
  | _ => True

namespace Token

/-- **The tokens are read as they are written**, behind any tokens that are complete. -/
def Legible (ts : List Token) : Prop :=
  ∀ done, ∃ s, Reads Lexer.step ⟨done, .between⟩ (ts.flatMap chars) s ∧ s.Holds (ts.reverse ++ done)

theorem legible_nil : Legible [] := fun done => ⟨_, reads_nil _ _, .between done⟩

/-- Every scalar that can be written is legible. -/
theorem legible_scalar {value : Scalar} (h : value.WellFormed) : Legible [.scalar value] := by
  intro done
  rw [List.flatMap_singleton]
  show ∃ s, Reads Lexer.step ⟨done, .between⟩ value.chars s ∧ s.Holds (.scalar value :: done)
  -- behind a name or a number the lexer waits for more of it
  have hname : ∀ cs value, cs ≠ [] → cs.all Lexer.isBareChar = true →
      bareScalar? cs = some value →
      ∃ s, Reads Lexer.step ⟨done, .between⟩ cs s ∧ s.Holds (.scalar value :: done) := by
    intro cs value hne hcs hvalue
    rw [← cs.reverse_reverse] at hvalue
    exact ⟨_, Lexer.reads_bare hne hcs, .bare done hvalue⟩
  cases value with
  | null => exact hname _ _ (by decide) rfl rfl
  | bool value => cases value <;> exact hname _ _ (by decide) rfl rfl
  | number digits =>
      have hvalue := Lexer.bareScalar?_of_isNumber h
      rw [String.ofList_toList] at hvalue
      refine hname _ _ ?_ (Lexer.all_isBareChar_of_isNumber h) hvalue
      exact Lexer.ne_of_isNumber h rfl
  | string text =>
      cases text with
      | some text => exact ⟨_, Lexer.reads_quote done text, .between _⟩
      | none => exact ⟨_, rfl, .between _⟩

/-- **Legible tokens on both sides of a mark are legible together.** -/
theorem Legible.append_mark {c : Char} {t : Token} (hts : Legible ts)
    (hmark : Lexer.mark? c = some t) (hus : Legible us) : Legible (ts ++ t :: us) := by
  intro done
  obtain ⟨s, hlead, hholds⟩ := hts done
  obtain ⟨s', hlead', hholds'⟩ := hus (t :: (ts.reverse ++ done))
  refine ⟨s', ?_, ?_⟩
  · rw [List.flatMap_append, List.flatMap_cons, (Lexer.chars_of_mark? hmark).1]
    exact hlead.append (.cons (hholds.step_mark hmark) hlead')
  · rw [List.reverse_append, List.reverse_cons, List.append_assoc, List.append_assoc]
    exact hholds'

theorem Legible.cons_mark {c : Char} {t : Token} (hmark : Lexer.mark? c = some t)
    (hts : Legible ts) : Legible (t :: ts) :=
  legible_nil.append_mark hmark hts

/-- **The lexer finds the tokens of a text.** -/
theorem Legible.ofText?_eq (h : Legible ts) :
    ofText? (String.ofList (ts.flatMap chars)) = some ts := by
  obtain ⟨s, hlead, hholds⟩ := h []
  rw [ofText?, String.toList_ofList, show List.foldlM Lexer.step {} _ = some s from hlead,
    Option.bind_some, hholds.finish_eq, List.append_nil, List.reverse_reverse]

end Token

end FactHierarchy
