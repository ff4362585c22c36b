import FactHierarchy.Proofs.Text.Separator
import FactHierarchy.Term.NTriples

/-!
# Facts that are told apart by their texts

The text of a fact can be taken apart again from the left. An IRI ends at the first `>` and a label
at the first space, as long as there is none in it (`Node.text_append_inj`). So the first two spaces
outside of IRIs end the subject and the predicate, and what is left is the object with the full stop
behind it. In the object nothing has to be excluded: its text ends where the line ends, and an
escape never looks like the quote that closes a literal (`Literal.escape_append_inj`).

Only a language that hides a datatype is lost (`facts_told_apart_by_text`).
-/

set_option autoImplicit false

namespace FactHierarchy

/-! ## Nodes -/

/-- **The end of the node shows in its text**: there is no `>` in the IRI, or no space in the
label. -/
def Node.Delimited : Node → Prop
  | .iri text => '>' ∉ text.toList
  | .blank label => ' ' ∉ label.toList

instance : DecidablePred Node.Delimited
  | .iri text => inferInstanceAs (Decidable ('>' ∉ text.toList))
  | .blank label => inferInstanceAs (Decidable (' ' ∉ label.toList))

theorem Node.toList_text_iri (text : String) :
    (Node.iri text).text.toList = '<' :: (text.toList ++ ['>']) := by
  simp [Node.text]

theorem Node.toList_text_blank (label : String) :
    (Node.blank label).text.toList = '_' :: ':' :: label.toList := by
  simp [Node.text]

/-- **A node in front of a space is determined** by its text, whatever follows the space. -/
theorem Node.text_append_inj {n n' : Node} {rest rest' : List Char} (hn : n.Delimited)
    (hn' : n'.Delimited) (h : n.text.toList ++ ' ' :: rest = n'.text.toList ++ ' ' :: rest') :
    n = n' ∧ rest = rest' := by
  cases n with
  | iri text =>
      cases n' with
      | iri text' =>
          simp only [toList_text_iri, List.cons_append, List.append_assoc, List.nil_append,
            List.cons.injEq, true_and] at h
          obtain ⟨htext, hrest⟩ := append_separator_inj hn hn' h
          exact ⟨congrArg iri (String.toList_inj.1 htext), (List.cons.inj hrest).2⟩
      | blank label' => simp [toList_text_iri, toList_text_blank] at h
  | blank label =>
      cases n' with
      | iri text' => simp [toList_text_iri, toList_text_blank] at h
      | blank label' =>
          simp only [toList_text_blank, List.cons_append, List.cons.injEq, true_and] at h
          obtain ⟨hlabel, hrest⟩ := append_separator_inj hn hn' h
          exact ⟨congrArg blank (String.toList_inj.1 hlabel), hrest⟩

/-- Where nothing follows, a node is determined by its text whatever is in it. -/
theorem Node.text_injective : Function.Injective Node.text := by
  intro n n' h
  have htext : n.text.toList = n'.text.toList := congrArg String.toList h
  cases n with
  | iri text =>
      cases n' with
      | iri text' => simpa [toList_text_iri, String.toList_inj] using htext
      | blank label' => simp [toList_text_iri, toList_text_blank] at htext
  | blank label =>
      cases n' with
      | iri text' => simp [toList_text_iri, toList_text_blank] at htext
      | blank label' => simpa [toList_text_blank, String.toList_inj] using htext

/-! ## Literals -/

namespace Literal

/-- The character that a letter behind a backslash stands for. -/
def escaped : Char → Char
  | 'n' => '\n'
  | 'r' => '\r'
  | 't' => '\t'
  | c => c

/-- **How a character is written between quotes**: by a letter behind a backslash that stands for
it, or as it is. -/
theorem escapeChar_cases (c : Char) :
    (∃ letter, escapeChar c = ['\\', letter] ∧ escaped letter = c) ∨
      (escapeChar c = [c] ∧ c ≠ '\\' ∧ c ≠ '"') := by
  unfold escapeChar
  split
  · exact .inl ⟨_, rfl, rfl⟩
  · exact .inl ⟨_, rfl, rfl⟩
  · exact .inl ⟨_, rfl, rfl⟩
  · exact .inl ⟨_, rfl, rfl⟩
  · exact .inl ⟨_, rfl, rfl⟩
  · next hquote hbackslash _ _ _ => exact .inr ⟨rfl, hbackslash, hquote⟩

/-- A character is determined by the way in which it is written, whatever follows. -/
theorem escapeChar_append_inj (c c' : Char) (rest rest' : List Char)
    (h : escapeChar c ++ rest = escapeChar c' ++ rest') : c = c' ∧ rest = rest' := by
  rcases escapeChar_cases c with ⟨letter, hc, hletter⟩ | ⟨hc, hbackslash, -⟩ <;>
    rcases escapeChar_cases c' with ⟨letter', hc', hletter'⟩ | ⟨hc', hbackslash', -⟩ <;>
    rw [hc, hc'] at h
  · obtain ⟨rfl, hrest⟩ := List.cons.inj (List.cons.inj h).2
    exact ⟨hletter.symm.trans hletter', hrest⟩
  · exact absurd (List.cons.inj h).1.symm hbackslash'
  · exact absurd (List.cons.inj h).1 hbackslash
  · exact List.cons.inj h

/-- No character is written so that it looks like the closing quote. -/
theorem escapeChar_append_ne (c : Char) (rest rest' : List Char) :
    escapeChar c ++ rest ≠ '"' :: rest' := by
  rcases escapeChar_cases c with ⟨letter, hc, -⟩ | ⟨hc, -, hquote⟩ <;> rw [hc] <;> intro h
  · exact absurd (List.cons.inj h).1 (by decide)
  · exact hquote (List.cons.inj h).1

/-- **A lexical form ends at the first quote that is not escaped.** -/
theorem escape_append_inj {lexical lexical' : String} {rest rest' : List Char}
    (h : (escape lexical).toList ++ '"' :: rest = (escape lexical').toList ++ '"' :: rest') :
    lexical = lexical' ∧ rest = rest' := by
  simp only [escape, String.toList_ofList] at h
  obtain ⟨hlexical, hrest⟩ :=
    flatMap_append_separator_inj escapeChar_append_inj escapeChar_append_ne h
  exact ⟨String.toList_inj.1 hlexical, hrest⟩

/-- The literal has no datatype that a language could hide. -/
def OneTag (l : Literal) : Prop := l.datatype = none ∨ l.language = none

instance : DecidablePred OneTag := fun l =>
  inferInstanceAs (Decidable (l.datatype = none ∨ l.language = none))

theorem suffix_inj {l l' : Literal} (hl : l.OneTag) (hl' : l'.OneTag)
    (h : l.suffix.toList = l'.suffix.toList) :
    l.datatype = l'.datatype ∧ l.language = l'.language := by
  obtain ⟨lexical, datatype, language⟩ := l
  obtain ⟨lexical', datatype', language'⟩ := l'
  cases datatype <;> cases language <;> cases datatype' <;> cases language' <;>
    simp_all [OneTag, suffix, String.toList_inj]

theorem toList_text (l : Literal) :
    l.text.toList = '"' :: ((escape l.lexical).toList ++ '"' :: l.suffix.toList) := by
  simp [text]

theorem text_inj {l l' : Literal} (hl : l.OneTag) (hl' : l'.OneTag) (h : l.text = l'.text) :
    l = l' := by
  have htext : l.text.toList = l'.text.toList := congrArg String.toList h
  rw [toList_text, toList_text] at htext
  obtain ⟨hlexical, hsuffix⟩ := escape_append_inj (List.cons.inj htext).2
  obtain ⟨hdatatype, hlanguage⟩ := suffix_inj hl hl' hsuffix
  show Literal.mk l.lexical l.datatype l.language = Literal.mk l'.lexical l'.datatype l'.language
  rw [hlexical, hdatatype, hlanguage]

end Literal

/-! ## Facts -/

/-- The literal that the term may be has no datatype that a language could hide. -/
def Term.OneTag : Term → Prop
  | .node _ => True
  | .literal l => l.OneTag

instance : DecidablePred Term.OneTag
  | .node _ => inferInstanceAs (Decidable True)
  | .literal l => inferInstanceAs (Decidable l.OneTag)

theorem Node.text_ne_text (n : Node) (l : Literal) : n.text ≠ l.text := by
  intro h
  have htext : n.text.toList = l.text.toList := congrArg String.toList h
  rw [Literal.toList_text] at htext
  cases n with
  | iri text => simp [toList_text_iri] at htext
  | blank label => simp [toList_text_blank] at htext

theorem Term.text_inj {t t' : Term} (ht : t.OneTag) (ht' : t'.OneTag) (h : t.text = t'.text) :
    t = t' := by
  cases t with
  | node n =>
      cases t' with
      | node n' => exact congrArg node (Node.text_injective h)
      | literal l' => exact absurd h (n.text_ne_text l')
  | literal l =>
      cases t' with
      | node n' => exact absurd h.symm (n'.text_ne_text l)
      | literal l' => exact congrArg literal (Literal.text_inj ht ht' h)

/-- **The fact can be read back from its text**: the ends of its subject and predicate show, and
nothing of its object is hidden. -/
structure Fact.Legible (f : Fact) : Prop where
  subject : f.subject.Delimited
  predicate : f.predicate.Delimited
  object : f.object.OneTag

theorem Fact.toList_text (f : Fact) :
    f.text.toList = f.subject.text.toList ++ ' ' :: (f.predicate.text.toList ++
      ' ' :: (f.object.text.toList ++ [' ', '.'])) := by
  simp [text]

/-- **Facts are told apart by their texts**, whatever is in their lexical forms, as long as no IRI
of a subject or predicate has a `>` in it, no label of one has a space in it, and no literal has
both a datatype and a language. -/
theorem facts_told_apart_by_text {f f' : Fact} (hf : f.Legible) (hf' : f'.Legible) :
    f.text = f'.text ↔ f = f' := by
  refine ⟨fun h => ?_, congrArg Fact.text⟩
  have htext : f.text.toList = f'.text.toList := congrArg String.toList h
  rw [Fact.toList_text, Fact.toList_text] at htext
  obtain ⟨hsubject, htext⟩ := Node.text_append_inj hf.subject hf'.subject htext
  obtain ⟨hpredicate, htext⟩ := Node.text_append_inj hf.predicate hf'.predicate htext
  -- what follows the second space is the object and the full stop
  have hobject : f.object = f'.object :=
    Term.text_inj hf.object hf'.object (String.toList_inj.1 (List.append_cancel_right htext))
  show Fact.mk f.subject f.predicate f.object = Fact.mk f'.subject f'.predicate f'.object
  rw [hsubject, hpredicate, hobject]

/-- The lexical form of the first literal looks as if it ended where that of the second one ends,
with the same language behind it. -/
theorem quoted_language_told_apart :
    let quoted : Fact := ⟨.blank "x>", .iri "urn:a label", Literal.plain "say \"hi\"@en"⟩
    let tagged : Fact := ⟨.blank "x>", .iri "urn:a label", Literal.lang "say \"hi" "en"⟩
    quoted.Legible ∧ tagged.Legible ∧ quoted.text ≠ tagged.text := by
  intro quoted tagged
  have hquoted : quoted.Legible := ⟨by decide, by decide, by decide⟩
  have htagged : tagged.Legible := ⟨by decide, by decide, by decide⟩
  refine ⟨hquoted, htagged, fun h => ?_⟩
  exact absurd ((facts_told_apart_by_text hquoted htagged).1 h) (by decide)

/-- A language hides a datatype. -/
example : (⟨"a", some Literal.xsdString, some "en"⟩ : Literal).text =
    (Literal.lang "a" "en").text := rfl

end FactHierarchy
