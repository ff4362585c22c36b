import FactHierarchy.Json.Record
import FactHierarchy.Proofs.Json.Parse
import Mathlib.Data.List.Nodup

/-!
# Forms that are read back

A form of a type in JSON is *faithful* (`Json.Faithful`) when all its values are well-formed and the
reader of the type reads them as what they were made from. Strings, lists, values that can be
absent and string maps have faithful forms if their parts have. For a record, the reader is given
the form of each field in order (`Json.readFields_record`).

The texts of a faithful form go round (`Json.Faithful.roundTrips`).
-/

set_option autoImplicit false

namespace FactHierarchy

/-! ## String maps -/

namespace StringMap

theorem eq_of_entries_eq {m m' : StringMap} (h : m.entries = m'.entries) : m = m' := by
  cases m
  cases m'
  cases h
  rfl

/-- A key behind all others is put at the end. -/
theorem insertEntry_of_lt {key value : String} {l : List (String × String)}
    (h : ∀ e ∈ l, e.1 < key) : insertEntry key value l = l ++ [(key, value)] := by
  induction l with
  | nil => rfl
  | cons e l ih =>
      rw [List.forall_mem_cons] at h
      rw [insertEntry, if_neg (String.lt_asymm h.1), if_pos h.1, ih h.2]
      rfl

theorem entries_insertAll {m : StringMap} {entries : List (String × String)}
    (h : (m.entries ++ entries).Pairwise fun a b => a.1 < b.1) :
    (m.insertAll entries).entries = m.entries ++ entries := by
  induction entries generalizing m with
  | nil => exact (List.append_nil _).symm
  | cons e entries ih =>
      have hlast : (m.insert e.1 e.2).entries = m.entries ++ [e] :=
        insertEntry_of_lt fun e' he' => (List.pairwise_append.1 h).2.2 e' he' e List.mem_cons_self
      rw [List.append_cons, ← hlast] at h ⊢
      exact ih h

/-- **A map is made from its entries.** -/
theorem ofList_entries (m : StringMap) : ofList m.entries = m :=
  eq_of_entries_eq (entries_insertAll (m := .empty) m.ascending)

end StringMap

namespace Json

variable {α : Type} {form : α → Json} {read? : Json → Option α}

/-! ## Well-formed values -/

theorem wellFormed_null : WellFormed .null := .scalar trivial

theorem wellFormed_str (text : String) : WellFormed (.str text) := .scalar trivial

theorem wellFormed_list {as : List α} (h : ∀ a ∈ as, (form a).WellFormed) :
    (list form as).WellFormed :=
  .array (List.forall_mem_map.2 h)

theorem wellFormed_record {members : List (String × Json)}
    (h : ∀ m ∈ members, m.2.WellFormed) : (record members).WellFormed :=
  .object (List.forall_mem_map.2 h)

theorem wellFormed_choice {name : String} {j : Json} (h : j.WellFormed) :
    (choice name j).WellFormed :=
  wellFormed_record (List.forall_mem_singleton.2 h)

/-! ## Reading -/

theorem mapM_map_eq_some {β γ : Type} {f : γ → β} {g : β → Option γ} (h : ∀ c, g (f c) = some c)
    (l : List γ) : (l.map f).mapM g = some l := by
  induction l with
  | nil => rfl
  | cons c l ih =>
      rw [List.map_cons, List.mapM_cons, h, ih]
      rfl

theorem readMembers_record (members : List (String × Json)) :
    readMembers (members.map fun m => (some m.1, m.2)) = some members := by
  rw [readMembers]
  refine mapM_map_eq_some (fun m => ?_) members
  rfl

theorem lookup_of_mem {members : List (String × Json)} {m : String × Json}
    (hnodup : (members.map Prod.fst).Nodup) (hm : m ∈ members) :
    members.lookup m.1 = some m.2 := by
  induction members with
  | nil => cases hm
  | cons first members ih =>
      obtain ⟨hnew, hnodup⟩ := List.nodup_cons.1 hnodup
      rw [List.lookup_cons]
      rcases List.mem_cons.1 hm with rfl | hm
      · rw [beq_self_eq_true]
      · have hne : m.1 ≠ first.1 := fun heq => hnew (heq ▸ List.mem_map_of_mem hm)
        rw [beq_false_of_ne hne]
        exact ih hnodup hm

/-- **The fields of a record are found in their order.** -/
theorem readFields_record {names : List String} {members : List (String × Json)}
    (hnames : members.map Prod.fst = names) (hnodup : names.Nodup) :
    readFields names (record members) = some (members.map fun m => .given m.2) := by
  subst hnames
  have honce : ((members.map Prod.fst).all fun name =>
      decide (members.countP (·.1 == name) ≤ 1)) = true := by
    refine List.all_eq_true.2 fun name _ => decide_eq_true ?_
    have hcount := List.nodup_iff_count_le_one.1 hnodup name
    rwa [List.count, List.countP_map] at hcount
  have hfound : ((members.map Prod.fst).map fun name =>
      (members.lookup name).elim FieldEntry.omitted .given) =
        members.map fun m => .given m.2 := by
    rw [List.map_map]
    refine List.map_congr_left fun m hm => ?_
    show (members.lookup m.1).elim FieldEntry.omitted .given = .given m.2
    rw [lookup_of_mem hnodup hm]
    rfl
  rw [record, readFields, readMembers_record, Option.bind_eq_bind, Option.bind_some, if_pos honce,
    hfound]
  rfl

/-- A string map is read from its entries. -/
theorem readStringMap_ofStringMap (m : StringMap) : readStringMap (ofStringMap m) = some m := by
  have hentries : (m.entries.map fun e => (e.1, str e.2)).mapM
      (fun m => (readString m.2).map fun value => (m.1, value)) = some m.entries := by
    refine mapM_map_eq_some (fun e => ?_) m.entries
    rfl
  rw [ofStringMap, record, readStringMap, readMembers_record, Option.bind_eq_bind,
    Option.bind_some, hentries, Option.bind_eq_bind, Option.bind_some, StringMap.ofList_entries]
  rfl

/-! ## Faithful forms -/

/-- **The form keeps the values of the type**: it consists of well-formed values, and what is read
from it is what it was made from. -/
structure Faithful (form : α → Json) (read? : Json → Option α) : Prop where
  wellFormed : ∀ a, (form a).WellFormed
  read_eq : ∀ a, read? (form a) = some a

theorem str_ne_null (text : String) : str text ≠ .null := nofun

theorem faithful_str : Faithful .str readString := ⟨wellFormed_str, fun _ => rfl⟩

theorem faithful_ofStringMap : Faithful ofStringMap readStringMap where
  wellFormed _ := wellFormed_record (List.forall_mem_map.2 fun e _ => wellFormed_str e.2)
  read_eq := readStringMap_ofStringMap

/-- A list is read item by item. -/
theorem Faithful.list (h : Faithful form read?) :
    Faithful (.list form) (readList read?) where
  wellFormed _ := wellFormed_list fun a _ => h.wellFormed a
  read_eq as := mapM_map_eq_some h.read_eq as

/-- A value that can be absent is read, unless its form could be taken for nothing. -/
theorem Faithful.option (h : Faithful form read?) (hne : ∀ a, form a ≠ .null) :
    Faithful (.option form) (FieldEntry.readOption read?) where
  wellFormed
    | none => wellFormed_null
    | some a => h.wellFormed a
  read_eq
    | none => rfl
    | some a => by
        show FieldEntry.readOption read? (form a) = some (some a)
        rw [FieldEntry.readOption, h.read_eq]
        · rfl
        · exact hne a

/-! ## Records -/

theorem Faithful.required (h : Faithful form read?) (a : α) :
    FieldEntry.required read? (.given (form a)) = some a := h.read_eq a

theorem Faithful.withDefault (h : Faithful form read?) (default a : α) :
    FieldEntry.withDefault default read? (.given (form a)) = some a := h.read_eq a

theorem Faithful.optional (h : Faithful form read?) (hne : ∀ a, form a ≠ .null) (a : Option α) :
    FieldEntry.optional read? (.given (Json.option form a)) = some a :=
  (h.option hne).read_eq a

/-- **A record is faithful** when its fields have different names and well-formed values, and its
reader makes the record of these values. -/
theorem faithful_record {names : List String} {fields : α → List (String × Json)}
    {build : List FieldEntry → Option α} (hnames : ∀ a, (fields a).map Prod.fst = names)
    (hnodup : names.Nodup) (hfields : ∀ a, ∀ m ∈ fields a, m.2.WellFormed)
    (hbuild : ∀ a, build ((fields a).map fun m => .given m.2) = some a) :
    Faithful (fun a => record (fields a)) (fun j => readFields names j >>= build) where
  wellFormed a := wellFormed_record (hfields a)
  read_eq a := by
    rw [readFields_record (hnames a) hnodup]
    exact hbuild a

/-! ## Texts -/

/-- **The form can be exchanged as text.** The text of a value is read as this value, so no two
values have the same text, and what is read from a text is read again from its own text. -/
structure RoundTrips (form : α → Json) (read? : Json → Option α) : Prop where
  readText_text : ∀ a, readText read? (form a).text = some a
  injective : Function.Injective fun a => (form a).text
  readText_again : ∀ text a, readText read? text = some a → readText read? (form a).text = some a

/-- **The texts of a faithful form go round.** -/
theorem Faithful.roundTrips (h : Faithful form read?) : RoundTrips form read? := by
  have hread : ∀ a, readText read? (form a).text = some a := by
    intro a
    rw [readText, (h.wellFormed a).parse?_text, Option.bind_some, h.read_eq]
  refine ⟨hread, fun a b hab => ?_, fun _ a _ => hread a⟩
  have hboth : some a = some b := by
    rw [← hread a, ← hread b]
    exact congrArg (readText read?) hab
  exact Option.some.inj hboth

end Json

end FactHierarchy
