import EventRelay.ByName

/-!
# Laws of values by name

What insertion and removal do to look-ups, and that both keep the names ascending. Where the names
ascend, membership and look-up say the same, so a list of pairs is known by its look-ups; and a list
of pairs that ascend already is what it gathers to.
-/

namespace EventRelay.ByName

variable {α β : Type}

/-! ## Look-ups -/

theorem mem_of_find? {name : String} {value : α} {entries : List (String × α)}
    (h : find? name entries = some value) : (name, value) ∈ entries := by
  induction entries with
  | nil => simp [find?] at h
  | cons entry rest ih =>
    obtain ⟨other, old⟩ := entry
    simp only [find?] at h
    split at h
    · next heq =>
      obtain rfl := Option.some.inj h
      rw [heq]
      exact List.mem_cons_self
    · exact List.mem_cons_of_mem _ (ih h)

theorem find?_eq_none_iff {name : String} {entries : List (String × α)} :
    find? name entries = none ↔ name ∉ names entries := by
  induction entries with
  | nil => simp [find?, names]
  | cons entry rest ih =>
    obtain ⟨other, old⟩ := entry
    simp only [names, List.map_cons, List.mem_cons, not_or] at ih ⊢
    by_cases h : name = other
    · simp [find?, h]
    · simp [find?, h, ih]

theorem find?_map (f : α → β) (name : String) (entries : List (String × α)) :
    find? name (entries.map fun (n, v) => (n, f v)) = (find? name entries).map f := by
  induction entries with
  | nil => rfl
  | cons entry rest ih =>
    obtain ⟨other, old⟩ := entry
    simp only [List.map_cons, find?]
    split
    · rfl
    · exact ih

theorem find?_erase_of_ne {name other : String} (h : other ≠ name) (entries : List (String × α)) :
    find? other (erase name entries) = find? other entries := by
  induction entries with
  | nil => rfl
  | cons entry rest ih =>
    obtain ⟨first, old⟩ := entry
    by_cases hf : name = first
    · subst hf; simp [erase, find?, h]
    · simp [erase, find?, hf, ih]

/-! ## Ascending names -/

theorem mem_names_insert {n name : String} {value : α} {entries : List (String × α)} :
    n ∈ names (insert name value entries) ↔ n = name ∨ n ∈ names entries := by
  induction entries with
  | nil => simp [insert, names]
  | cons entry rest ih =>
    obtain ⟨other, old⟩ := entry
    simp only [names, insert] at ih ⊢
    split
    · next heq => subst heq; simp
    · split
      · simp
      · simp only [List.map_cons, List.mem_cons, ih]
        exact or_left_comm

/-- `erase` takes names away and moves none. -/
theorem names_erase_sublist (name : String) (entries : List (String × α)) :
    (names (erase name entries)).Sublist (names entries) := by
  induction entries with
  | nil => exact List.Sublist.refl _
  | cons entry rest ih =>
    simp only [names, erase] at ih ⊢
    split
    · exact List.sublist_cons_self ..
    · exact ih.cons_cons _

namespace Ascending

theorem nil : Ascending ([] : List (String × α)) := List.Pairwise.nil

theorem tail {entry : String × α} {rest : List (String × α)} (h : Ascending (entry :: rest)) :
    Ascending rest :=
  (List.pairwise_cons.1 h).2

theorem head_lt {entry : String × α} {rest : List (String × α)} (h : Ascending (entry :: rest))
    {n : String} (hn : n ∈ names rest) : entry.1 < n :=
  (List.pairwise_cons.1 h).1 n hn

theorem head_not_mem {entry : String × α} {rest : List (String × α)}
    (h : Ascending (entry :: rest)) : entry.1 ∉ names rest :=
  fun hn => String.lt_irrefl _ (h.head_lt hn)

/-- In `Ascending` entries no name stands twice, so `find?` finds what is there. -/
theorem mem_iff {name : String} {value : α} {entries : List (String × α)} (h : Ascending entries) :
    (name, value) ∈ entries ↔ find? name entries = some value := by
  refine ⟨fun hm => ?_, mem_of_find?⟩
  induction entries with
  | nil => cases hm
  | cons entry rest ih =>
    rcases List.mem_cons.1 hm with rfl | hm
    · simp [find?]
    · have hn : name ∈ names rest := List.mem_map.2 ⟨_, hm, rfl⟩
      have hne : name ≠ entry.1 := fun heq => h.head_not_mem (heq ▸ hn)
      simp [find?, hne, ih h.tail hm]

/-- `insert` keeps entries `Ascending`. -/
theorem insert {entries : List (String × α)} (h : Ascending entries) (name : String) (value : α) :
    Ascending (insert name value entries) := by
  induction entries with
  | nil => exact List.pairwise_singleton ..
  | cons entry rest ih =>
    obtain ⟨other, old⟩ := entry
    simp only [ByName.insert]
    split
    · next heq => subst heq; exact h
    · split
      · next hne hlt =>
        refine List.pairwise_cons.2 ⟨fun n hn => ?_, h⟩
        rcases List.mem_cons.1 hn with rfl | hn
        · exact hlt
        · exact String.lt_trans hlt (h.head_lt hn)
      · next hne hlt =>
        refine List.pairwise_cons.2 ⟨fun n hn => ?_, ih h.tail⟩
        rcases mem_names_insert.1 hn with rfl | hn
        · exact Std.not_le.1 fun hle => hne (String.le_antisymm hle (String.not_lt.1 hlt))
        · exact h.head_lt hn

/-- `erase` keeps entries `Ascending`. -/
theorem erase {entries : List (String × α)} (h : Ascending entries) (name : String) :
    Ascending (erase name entries) :=
  h.sublist (names_erase_sublist name entries)

theorem map {entries : List (String × α)} (h : Ascending entries) (f : α → β) :
    Ascending (entries.map fun (n, v) => (n, f v)) := by
  have hnames : names (entries.map fun (n, v) => (n, f v)) = names entries := by
    simp [names, List.map_map, Function.comp_def]
  unfold Ascending
  rw [hnames]
  exact h

theorem find?_erase_self {entries : List (String × α)} (h : Ascending entries) (name : String) :
    find? name (ByName.erase name entries) = none := by
  induction entries with
  | nil => rfl
  | cons entry rest ih =>
    obtain ⟨other, old⟩ := entry
    simp only [ByName.erase]
    split
    · next heq =>
      subst heq
      exact find?_eq_none_iff.2 h.head_not_mem
    · next hne => simp [find?, hne, ih h.tail]

/-- Entries that are `Ascending` are known by their look-ups. -/
theorem ext {entries others : List (String × α)} (h : Ascending entries) (h' : Ascending others)
    (hfind : ∀ name, find? name entries = find? name others) : entries = others := by
  have hpairs : ∀ {xs : List (String × α)}, Ascending xs → xs.Pairwise fun a b => a.1 < b.1 :=
    List.pairwise_map.1
  have hnodup : ∀ {xs : List (String × α)}, Ascending xs → xs.Nodup := by
    intro xs hx
    refine (hpairs hx).imp fun {a b} hlt => ?_
    rintro rfl
    exact String.lt_irrefl _ hlt
  refine List.Perm.eq_of_pairwise (fun a b _ _ hab hba => absurd hba (String.lt_asymm hab))
    (hpairs h) (hpairs h') ?_
  refine (List.perm_ext_iff_of_nodup (hnodup h) (hnodup h')).2 ?_
  rintro ⟨name, value⟩
  rw [h.mem_iff, h'.mem_iff, hfind]

end Ascending

/-! ## Many values at once -/

/-- Puts values under their names one after the other, by `insert`. -/
def insertAll (entries : List (String × α)) (more : List (String × α)) : List (String × α) :=
  more.foldl (fun acc (name, value) => insert name value acc) entries

theorem insertAll_cons (entries : List (String × α)) (name : String) (value : α)
    (more : List (String × α)) :
    insertAll entries ((name, value) :: more) = insertAll (insert name value entries) more :=
  rfl

theorem mem_insert {m : String × α} {name : String} {value : α} {entries : List (String × α)}
    (h : m ∈ insert name value entries) : m = (name, value) ∨ m ∈ entries := by
  induction entries with
  | nil => exact .inl (List.mem_singleton.1 h)
  | cons entry rest ih =>
    obtain ⟨other, old⟩ := entry
    simp only [insert] at h
    split at h
    · exact (List.mem_cons.1 h).imp_right (List.mem_cons_of_mem _)
    · split at h
      · exact List.mem_cons.1 h
      · rcases List.mem_cons.1 h with rfl | h
        · exact .inr List.mem_cons_self
        · exact (ih h).imp_right (List.mem_cons_of_mem _)

theorem mem_insertAll {m : String × α} {entries more : List (String × α)}
    (h : m ∈ insertAll entries more) : m ∈ entries ∨ m ∈ more := by
  induction more generalizing entries with
  | nil => exact .inl h
  | cons entry rest ih =>
    rcases ih h with hm | hm
    · rcases mem_insert hm with rfl | hm
      · exact .inr List.mem_cons_self
      · exact .inl hm
    · exact .inr (List.mem_cons_of_mem _ hm)

theorem Ascending.insertAll {entries : List (String × α)} (h : Ascending entries)
    (more : List (String × α)) : Ascending (insertAll entries more) := by
  induction more generalizing entries with
  | nil => exact h
  | cons entry rest ih => exact ih (h.insert _ _)

/-- A name above all others goes to the end. -/
theorem insert_eq_append {name : String} {value : α} {entries : List (String × α)}
    (h : ∀ n ∈ names entries, n < name) :
    insert name value entries = entries ++ [(name, value)] := by
  induction entries with
  | nil => rfl
  | cons entry rest ih =>
    obtain ⟨other, old⟩ := entry
    have hlt : other < name := h other List.mem_cons_self
    have hne : name ≠ other := fun heq => String.lt_irrefl _ (heq ▸ hlt)
    rw [insert, if_neg hne, if_neg (String.lt_asymm hlt),
      ih fun n hn => h n (List.mem_cons_of_mem _ hn), List.cons_append]

/-- Entries that are `Ascending` already are put in as they stand, one after the other. -/
theorem insertAll_eq_append {entries more : List (String × α)} (h : Ascending (entries ++ more)) :
    insertAll entries more = entries ++ more := by
  induction more generalizing entries with
  | nil => exact (List.append_nil _).symm
  | cons entry rest ih =>
    obtain ⟨name, value⟩ := entry
    have hlt : ∀ n ∈ names entries, n < name := by
      intro n hn
      unfold Ascending names at h
      rw [List.map_append, List.pairwise_append] at h
      exact h.2.2 n hn name List.mem_cons_self
    rw [insertAll_cons, insert_eq_append hlt, ih (by rwa [List.append_assoc]), List.append_assoc,
      List.singleton_append]

/-- `insert` of a new name adds one entry, wherever it stands. -/
theorem perm_insert {name : String} {value : α} {entries : List (String × α)}
    (h : name ∉ names entries) : (insert name value entries).Perm ((name, value) :: entries) := by
  induction entries with
  | nil => exact .refl _
  | cons entry rest ih =>
    obtain ⟨other, old⟩ := entry
    have hne : name ≠ other := fun heq => h (heq ▸ List.mem_cons_self)
    simp only [insert, if_neg hne]
    split
    · exact .refl _
    · exact ((ih fun hn => h (List.mem_cons_of_mem _ hn)).cons _).trans (.swap ..)

/-- Where no name stands twice, nothing is replaced: `insertAll` adds each entry. -/
theorem perm_insertAll {entries more : List (String × α)} (h : (names (entries ++ more)).Nodup) :
    (insertAll entries more).Perm (entries ++ more) := by
  induction more generalizing entries with
  | nil => exact .of_eq (List.append_nil _).symm
  | cons entry rest ih =>
    obtain ⟨name, value⟩ := entry
    have hmoved : (entries ++ (name, value) :: rest).Perm ((name, value) :: entries ++ rest) :=
      List.perm_middle
    have hnodup : (names ((name, value) :: entries ++ rest)).Nodup := (hmoved.map _).nodup h
    have hnew : name ∉ names entries := by
      intro hn
      refine (List.nodup_cons.1 hnodup).1 ?_
      rw [List.append_eq, List.map_append]
      exact List.mem_append_left _ hn
    have hinsert : (insert name value entries).Perm ((name, value) :: entries) := perm_insert hnew
    have hrest := ih (((hinsert.append_right rest).map _).symm.nodup hnodup)
    exact (hrest.trans (hinsert.append_right rest)).trans hmoved.symm

end EventRelay.ByName
