import EventRelay.Json.Codec
import EventRelay.Proofs.Json.Lexing
import EventRelay.Proofs.Json.Reading

/-!
# Codecs that keep a value

A codec keeps a value if what it writes for the value is exact and read as the value again, as it is
written and with its members in canonical order alike. Such a value comes back from its text, and
also from the free value that its text stands for. Records keep what their fields keep, because a
record is read from its members in any order.
-/

namespace EventRelay.Json

/-! ## Members in any order -/

/-- Members hold the values of fields, in the order of the fields. -/
inductive Stands : (fs : List Field) → Values fs → List (String × Json) → Prop where
  | nil : Stands [] () []
  | cons {f : Field} {fs : List Field} {a : f.type} {q : Values fs} {v : Json}
      {ms : List (String × Json)} (h : f.codec.decode.Reads v a) (hrest : Stands fs q ms) :
      Stands (f :: fs) (a, q) ((f.name, v) :: ms)

/-- What is read of some fields, their `Draft`, and the members still to come, in any order, make up
the values of the fields. -/
def Awaits : (fs : List Field) → Values fs → Draft fs → List (String × Json) → Prop
  | [], _, _, ms => ms = []
  | f :: fs, (a, q), (x, d), ms =>
    (match x with
      | some b => b = a ∧ ∀ m ∈ ms, m.1 ≠ f.name
      | none => ∃ v, f.codec.decode.Reads v a ∧ ms.filter (fun m => m.1 = f.name) = [(f.name, v)]) ∧
    Awaits fs q d (ms.filter fun m => m.1 ≠ f.name)

theorem Stands.names_eq {fs : List Field} {q : Values fs} {ms : List (String × Json)}
    (h : Stands fs q ms) : ByName.names ms = fs.map (·.name) := by
  induction h with
  | nil => rfl
  | cons _ _ ih => exact congrArg (_ :: ·) ih

/-- Before anything is read, the members that `Stands` has may come in any order. -/
theorem Stands.awaits {fs : List Field} {q : Values fs} {ms : List (String × Json)}
    (h : Stands fs q ms) (hnames : (fs.map (·.name)).Nodup) {ms' : List (String × Json)}
    (hperm : ms'.Perm ms) : Awaits fs q (Draft.empty fs) ms' := by
  induction h generalizing ms' with
  | nil => exact List.perm_nil.1 hperm
  | @cons f fs a q v ms hv hms ih =>
    obtain ⟨hnew, hnames⟩ := List.nodup_cons.1 hnames
    have hother : ∀ m ∈ ms, m.1 ≠ f.name := by
      intro m hm heq
      have hmem : m.1 ∈ ByName.names ms := List.mem_map_of_mem hm
      rw [hms.names_eq, heq] at hmem
      exact hnew hmem
    have hnone : ms.filter (fun m => m.1 = f.name) = [] := by simpa using hother
    have hall : ms.filter (fun m => m.1 ≠ f.name) = ms := by simpa using hother
    refine ⟨⟨v, hv, ?_⟩, ih hnames ?_⟩
    · have := hperm.filter fun m => m.1 = f.name
      rw [List.filter_cons_of_pos (by simp), hnone] at this
      exact List.perm_singleton.1 this
    · have := hperm.filter fun m => m.1 ≠ f.name
      rwa [List.filter_cons_of_neg (by simp), hall] at this

/-- A member that is awaited is read, and the others are awaited still. -/
theorem Awaits.member {fs : List Field} {q : Values fs} {d : Draft fs} {name : String} {v : Json}
    {ms : List (String × Json)} (h : Awaits fs q d ((name, v) :: ms)) :
    ∃ d', Decoder.ReadsMember (Draft.member fs) d name v d' ∧ Awaits fs q d' ms := by
  induction fs generalizing ms with
  | nil => cases h
  | cons f fs ih =>
    obtain ⟨a, q⟩ := q
    obtain ⟨x, d⟩ := d
    obtain ⟨hfirst, hrest⟩ := h
    by_cases hname : name = f.name
    · subst hname
      rw [List.filter_cons_of_neg (by simp)] at hrest
      -- the field was not read before, for then no member of its name would be to come
      cases x with
      | some b => exact absurd rfl (hfirst.2 _ List.mem_cons_self)
      | none =>
        obtain ⟨w, hw, hfilter⟩ := hfirst
        rw [List.filter_cons_of_pos (by simp)] at hfilter
        obtain ⟨hhead, hnone⟩ := List.cons.inj hfilter
        obtain rfl : v = w := congrArg Prod.snd hhead
        refine ⟨(some a, d), fun depth rest hdepth => ?_, ⟨rfl, by simpa using hnone⟩, hrest⟩
        simp [Draft.member, Decoder.andThen, hw.afterColon depth rest hdepth, Decoder.result]
    · rw [List.filter_cons_of_pos (by simpa using hname)] at hrest
      obtain ⟨d', hd', hawaits⟩ := ih hrest
      refine ⟨(x, d'), fun depth rest hdepth => ?_, ?_, hawaits⟩
      · simp [Draft.member, Decoder.andThen, hname, hd' depth rest hdepth, Decoder.result]
      · cases x with
        | some b => exact ⟨hfirst.1, fun m hm => hfirst.2 m (List.mem_cons_of_mem _ hm)⟩
        | none =>
          rwa [List.filter_cons_of_neg (by simpa using hname)] at hfirst

/-- All members that are awaited are read, one after the other. -/
theorem Awaits.takes {fs : List Field} {q : Values fs} {d : Draft fs}
    {ms : List (String × Json)} (h : Awaits fs q d ms) :
    ∃ d', Decoder.Takes (Draft.member fs) d ms d' ∧ Awaits fs q d' [] := by
  induction ms generalizing d with
  | nil => exact ⟨d, .nil d, h⟩
  | cons m ms ih =>
    obtain ⟨d₁, hmember, h₁⟩ := h.member
    obtain ⟨d₂, htakes, h₂⟩ := ih h₁
    exact ⟨d₂, .cons hmember htakes, h₂⟩

/-- When nothing is awaited any more the draft is complete. -/
theorem Awaits.values?_eq {fs : List Field} {q : Values fs} {d : Draft fs}
    (h : Awaits fs q d []) : d.values? fs = some q := by
  induction fs with
  | nil => rfl
  | cons f fs ih =>
    obtain ⟨a, q⟩ := q
    obtain ⟨x, d⟩ := d
    obtain ⟨hfirst, hrest⟩ := h
    cases x with
    | none =>
      obtain ⟨w, -, hw⟩ := hfirst
      cases hw
    | some b =>
      obtain ⟨rfl, -⟩ := hfirst
      simp only [Draft.values?, ih hrest]
      rfl

/-- `Decoder.fields` reads fields from their members in any order. -/
theorem Stands.fields_reads {fs : List Field} {q : Values fs} {ms : List (String × Json)}
    (h : Stands fs q ms) (hnames : (fs.map (·.name)).Nodup) {ms' : List (String × Json)}
    (hperm : ms'.Perm ms) : (Decoder.fields fs).Reads (.object ms') q := by
  obtain ⟨d, htakes, hd⟩ := (h.awaits hnames hperm).takes
  have hcomplete : ∀ depth rest, Decoder.complete fs d depth rest = .ok (q, rest) := by
    intro depth rest
    rw [Decoder.complete, hd.values?_eq]
    rfl
  have hread := (Decoder.object_reads htakes).andThen hcomplete
  intro depth rest hdepth
  have := hread depth rest hdepth
  rw [tokens_object] at this ⊢
  exact this

/-! ## Keeping -/

namespace Codec

variable {α β : Type}

/-- What is written for a value is exact, and is read as the value in either order of members. -/
structure Keeps (c : Codec α) (a : α) : Prop where
  exact : (c.encode a).Exact
  reads : c.decode.Reads (c.encode a) a
  readsCanonical : c.decode.Reads (c.encode a).canonical a

/-- A value that a codec `Keeps` comes back from its text. -/
theorem Keeps.read_write {c : Codec α} {a : α} (h : c.Keeps a)
    (hdepth : (c.encode a).depth < Decoder.depthLimit) : c.read (c.write a) = .ok a := by
  rw [read, write, Decoder.whole, compact, String.toList_ofList, ofChars_toChars h.exact]
  exact h.reads.only hdepth

/-- The text of a value that is kept, read as a free value: its members come in `canonical`
order. -/
theorem Keeps.free_read_write {c : Codec α} {a : α} (h : c.Keeps a)
    (hdepth : (c.encode a).depth < Decoder.depthLimit) :
    free.read (c.write a) = .ok (c.encode a).canonical := by
  rw [read, write, Decoder.whole, compact, String.toList_ofList, ofChars_toChars h.exact]
  exact (Decoder.value_reads _).only hdepth

/-- A value that is kept comes back from the free value that its text stands for. -/
theorem Keeps.ofJson_canonical {c : Codec α} {a : α} (h : c.Keeps a)
    (hdepth : (c.encode a).depth < Decoder.depthLimit) :
    c.ofJson (c.encode a).canonical = .ok a :=
  h.readsCanonical.only (Nat.lt_of_le_of_lt (depth_canonical_le _) hdepth)

theorem string_keeps (s : String) : string.Keeps s :=
  ⟨.string s, Decoder.string_reads s, Decoder.string_reads s⟩

theorem int64_keeps {n : Int} (h : -2 ^ 63 ≤ n ∧ n < 2 ^ 63) : int64.Keeps n :=
  ⟨.whole ⟨h.1, by omega⟩, Decoder.int64_reads h, Decoder.int64_reads h⟩

theorem nat64_keeps {n : Nat} (h : n < 2 ^ 64) : nat64.Keeps n :=
  ⟨.whole ⟨by omega, by omega⟩, Decoder.nat64_reads h, Decoder.nat64_reads h⟩

/-- Of free values those are kept that hold no double. -/
theorem free_keeps {v : Json} (h : v.WellFormed) (hfree : v.isDoubleFree = true) :
    free.Keeps v := by
  have hreads : Decoder.value.Reads v v := by
    have := Decoder.value_reads v
    rwa [h.canonical_eq] at this
  refine ⟨h.exact hfree, hreads, ?_⟩
  show Decoder.value.Reads v.canonical v
  rwa [h.canonical_eq]

theorem Keeps.via {c : Codec α} {read : α → Option β} {write : β → α} {b : β}
    (h : c.Keeps (write b)) (hread : read (write b) = some b) : (c.via read write).Keeps b :=
  ⟨h.exact, h.reads.refine hread, h.readsCanonical.refine hread⟩

/-- What is written as a string is kept if reading gives it back. -/
theorem text_keeps {read : String → Option α} {write : α → String} {a : α}
    (h : read (write a) = some a) : (text read write).Keeps a :=
  (string_keeps (write a)).via h

/-- A list keeps what its elements keep. -/
theorem list_keeps {c : Codec α} {as : List α} (h : ∀ a ∈ as, c.Keeps a) : (list c).Keeps as := by
  refine ⟨.array fun v hv => ?_, Decoder.list_reads ?_, ?_⟩
  · obtain ⟨a, ha, rfl⟩ := List.mem_map.1 hv
    exact (h a ha).exact
  · rw [List.forall₂_map_left_iff, List.forall₂_same]
    exact fun a ha => (h a ha).reads
  · show (Decoder.list c.decode).Reads (Json.array (as.map c.encode)).canonical as
    rw [canonical, canonicalItems_eq]
    refine Decoder.list_reads ?_
    rw [List.map_map, List.forall₂_map_left_iff, List.forall₂_same]
    exact fun a ha => (h a ha).readsCanonical

end Codec

/-! ## Records -/

theorem names_members {fs : List Field} (q : Values fs) :
    ByName.names (Values.members fs q) = fs.map (·.name) := by
  induction fs with
  | nil => rfl
  | cons f fs ih => exact congrArg (f.name :: ·) (ih q.2)

namespace Codec

variable {α : Type}

/-- Each of the fields keeps its value. -/
def KeepAll : (fs : List Field) → Values fs → Prop
  | [], _ => True
  | f :: fs, (a, q) => f.codec.Keeps a ∧ KeepAll fs q

/-- The members that are written for kept values stand for them. -/
theorem KeepAll.stands {fs : List Field} {q : Values fs} (h : KeepAll fs q) :
    Stands fs q (Values.members fs q) := by
  induction fs with
  | nil => exact .nil
  | cons f fs ih => exact .cons h.1.reads (ih h.2)

/-- So they do after the members inside them are put in order. -/
theorem KeepAll.stands_canonical {fs : List Field} {q : Values fs} (h : KeepAll fs q) :
    Stands fs q ((Values.members fs q).map fun m => (m.1, m.2.canonical)) := by
  induction fs with
  | nil => exact .nil
  | cons f fs ih => exact .cons h.1.readsCanonical (ih h.2)

theorem KeepAll.exact {fs : List Field} {q : Values fs} (h : KeepAll fs q) :
    ∀ m ∈ Values.members fs q, m.2.Exact := by
  induction fs with
  | nil => exact fun m hm => absurd hm List.not_mem_nil
  | cons f fs ih => exact List.forall_mem_cons.2 ⟨h.1.exact, ih h.2⟩

/-- A record keeps what its fields `KeepAll`, if their names are different. -/
theorem record_keeps {fs : List Field} {ofValues : Values fs → α} {values : α → Values fs} {a : α}
    (hnames : (fs.map (·.name)).Nodup) (h : KeepAll fs (values a))
    (hof : ofValues (values a) = a) : (record fs ofValues values).Keeps a := by
  have hresult : ∀ depth rest,
      Decoder.result (ofValues (values a)) depth rest = .ok (a, rest) := by
    intro depth rest
    rw [hof]
    rfl
  refine ⟨.object h.exact, ?_, ?_⟩
  · exact (h.stands.fields_reads hnames (.refl _)).andThen hresult
  · have hgather := @ByName.perm_insertAll _ [] _ (h.stands_canonical.names_eq ▸ hnames)
    show Decoder.Reads _ (Json.object _).canonical a
    rw [canonical_object]
    exact (h.stands_canonical.fields_reads hnames hgather).andThen hresult

end Codec

end EventRelay.Json
