import EventRelay.Http.Message
import EventRelay.Proofs.Json.Yields
import EventRelay.Proofs.Wire.Values

/-!
# Values on the wire come back

Two directions meet here. A value that a program holds is written as a text that is read as the
value again, whatever its strings, numbers and free values are, as long as no double is in them and
the document is not nested too deep. And a value that came in with a request is such a value: its
numbers are in range, its free values are well formed, and it nests so much less than its request
was allowed to that every response that carries it back can be read. So nothing is accepted that
would be unreadable later.
-/

namespace EventRelay.Wire

open Json

/-! ## What is decoded is well formed -/

section Decoded

variable (depth : Nat)

theorem uuid_yields : uuid.decode.Yields depth fun _ => True :=
  (Decoder.string_yields depth).refine fun _ _ _ _ => trivial

theorem context_yields : context.decode.Yields depth fun _ => 1 < depth :=
  Codec.record_yields (fun _ => True, ())
    ⟨Decoder.string_yields _, by simp, trivial⟩ fun hdepth _ _ => hdepth

theorem aggregate_yields : aggregate.decode.Yields depth fun _ => 1 < depth :=
  Codec.record_yields (fun _ => True, fun _ => True, ())
    ⟨Decoder.string_yields _, by simp, uuid_yields _, by simp, trivial⟩ fun hdepth _ _ => hdepth

theorem user_yields : user.decode.Yields depth fun u =>
    u.2.WellFormed ∧ u.2.depth + 1 ≤ depth - 1 := by
  refine Codec.record_yields (fun _ => True, HeldWithin (depth - 1), ())
    ⟨Decoder.string_yields _, by simp, Decoder.value_yields _, ?_, trivial⟩ ?_
  · rintro _ ⟨⟩
    exact ⟨.null, Nat.zero_le _⟩
  · rintro hdepth ⟨id, claims, -⟩ ⟨-, ⟨hclaims, hbound⟩, -⟩
    refine ⟨hclaims, ?_⟩
    dsimp only
    omega

/-- Claims that are read are `WellFormed`, and nest two levels less than the initiator may. -/
theorem initiator_yields : initiator.decode.Yields depth fun i =>
    i.claims.WellFormed ∧ i.claims.depth + 2 ≤ depth - 1 := by
  refine Codec.record_yields (_, ()) ⟨user_yields _, by simp, trivial⟩ ?_
  rintro hdepth ⟨u, -⟩ ⟨⟨hclaims, hbound⟩, -⟩
  refine ⟨hclaims, ?_⟩
  dsimp only
  omega

theorem metadata_yields : metadata.decode.Yields depth fun m =>
    (-2 ^ 63 ≤ m.timestamp ∧ m.timestamp < 2 ^ 63) ∧ m.revision < 2 ^ 64 ∧
      m.initiator.claims.WellFormed ∧ m.initiator.claims.depth + 3 ≤ depth - 1 := by
  refine Codec.record_yields (_, _, _, _, _, fun _ => True, ()) ⟨uuid_yields _, by simp,
    uuid_yields _, by simp, Decoder.int64_yields _, by simp, Decoder.nat64_yields _, by simp,
    initiator_yields _, by simp, (Decoder.list_yields (Decoder.string_yields _)).mono (by simp),
    by simp, trivial⟩ ?_
  rintro hdepth ⟨causation, correlation, timestamp, revision, i, tags, -⟩
    ⟨-, -, htimestamp, hrevision, ⟨hclaims, hbound⟩, -⟩
  refine ⟨htimestamp, hrevision, hclaims, ?_⟩
  dsimp only
  omega

/-- An event that is read is `Event.WellFormed` and nests no deeper than may be entered. -/
theorem event_yields : event.decode.Yields depth fun e =>
    e.WellFormed ∧ (event.encode e).depth ≤ depth - 1 := by
  refine Codec.record_yields (_, _, fun _ => True, _, HeldWithin (depth - 1), _, ())
    ⟨context_yields _, by simp, aggregate_yields _, by simp, Decoder.string_yields _, by simp,
      uuid_yields _, by simp, Decoder.value_yields _, ?_, metadata_yields _, by simp, trivial⟩ ?_
  · rintro _ ⟨⟩
    exact ⟨.null, Nat.zero_le _⟩
  · rintro hdepth ⟨context, aggregate, name, id, data, metadata, -⟩
      ⟨-, -, -, -, ⟨hdata, hdataDepth⟩, ⟨htimestamp, hrevision, hclaims, hclaimsDepth⟩, -⟩
    refine ⟨⟨htimestamp, hrevision, hclaims, hdata⟩, ?_⟩
    rw [depth_event]
    dsimp only
    omega

/-- A snapshot that is read is `Snapshot.WellFormed` and nests no deeper than may be entered. -/
theorem snapshot_yields : snapshot.decode.Yields depth fun s =>
    s.WellFormed ∧ (snapshot.encode s).depth ≤ depth - 1 := by
  refine Codec.record_yields (_, _, HeldWithin (depth - 1), ())
    ⟨aggregate_yields _, by simp, Decoder.nat64_yields _, by simp, Decoder.value_yields _,
      by simp, trivial⟩ ?_
  rintro hdepth ⟨aggregate, revision, state, -⟩ ⟨haggregate, hrevision, ⟨hstate, hbound⟩, -⟩
  refine ⟨⟨hrevision, hstate⟩, ?_⟩
  rw [depth_snapshot]
  dsimp only
  omega

/-- Events of a request nest three levels less than the request may. -/
theorem writeEvents_yields : writeEvents.decode.Yields depth fun es =>
    ∀ e ∈ es, e.WellFormed ∧ (event.encode e).depth + 2 ≤ depth - 1 := by
  refine Codec.record_yields (_, ())
    ⟨Decoder.list_yields (event_yields _), by simp, trivial⟩ ?_
  rintro hdepth ⟨es, -⟩ ⟨⟨hlist, hes⟩, -⟩
  intro e he
  obtain ⟨hwf, hbound⟩ := hes e he
  exact ⟨hwf, by omega⟩

theorem storeSnapshot_yields : storeSnapshot.decode.Yields depth fun s =>
    s.WellFormed ∧ (snapshot.encode s).depth + 1 ≤ depth - 1 := by
  refine Codec.record_yields (_, ()) ⟨snapshot_yields _, by simp, trivial⟩ ?_
  rintro hdepth ⟨s, -⟩ ⟨⟨hwf, hbound⟩, -⟩
  exact ⟨hwf, by dsimp only; omega⟩

end Decoded

/-! ## Round trips -/

/-- A value comes back from its text, for a reader of the whole text, `read`, and for one of its
first value, `leading`. -/
def ReadsBack {α : Type} (c : Codec α) (a : α) : Prop :=
  c.read (c.write a) = .ok a ∧ c.decode.leading (c.write a) = .ok a

/-- What a codec `Keeps`, and does not nest too deep, comes back from its text. -/
theorem readsBack_of_keeps {α : Type} {c : Codec α} {a : α} (h : c.Keeps a)
    (hdepth : (c.encode a).depth ≤ 127) : ReadsBack c a := by
  have hread := h.read_write (Nat.lt_succ_of_le hdepth)
  exact ⟨hread, Decoder.leading_of_whole hread⟩

theorem exists_of_leading {α : Type} {d : Decoder α} {text : String} {a : α}
    (h : d.leading text = .ok a) :
    ∃ rest, d Decoder.depthLimit (Token.ofChars text.toList) = .ok (a, rest) := by
  rw [Decoder.leading] at h
  cases hd : d Decoder.depthLimit (Token.ofChars text.toList) with
  | error e => rw [hd] at h; cases h
  | ok p =>
    rw [hd] at h
    obtain ⟨⟩ := h
    exact ⟨p.2, rfl⟩

/-- What a decoder `Yields` is so of every value that it reads at the front of a text. -/
theorem yielded {α : Type} {d : Decoder α} {P : α → Prop} (h : d.Yields Decoder.depthLimit P)
    {text : String} {a : α} (htext : d.leading text = .ok a) : P a := by
  obtain ⟨rest, hd⟩ := exists_of_leading htext
  exact (h _ a rest (ofChars_fits _) hd).1

/-- Every value of the wire types that holds no double is `ReadsBack`, and everything that a request
brings in can be read from the responses that carry it back. -/
structure RoundTrips : Prop where
  event : ∀ e : Event, e.WellFormed → e.isDoubleFree = true → (event.encode e).depth ≤ 127 →
    ReadsBack event e
  aggregate : ∀ a : Aggregate, ReadsBack aggregate a
  snapshot : ∀ s : Snapshot, s.WellFormed → s.isDoubleFree = true →
    (snapshot.encode s).depth ≤ 127 → ReadsBack snapshot s
  awaitedItem : ∀ a : AwaitedItem, a.item.WellFormed → a.item.isDoubleFree = true →
    (awaitedItem.encode a).depth ≤ 127 → ReadsBack awaitedItem a
  lock : ∀ l : Lock, ReadsBack lock l
  deferRequest : ∀ r : DeferRequest, -2 ^ 63 ≤ r.priority ∧ r.priority < 2 ^ 63 →
    ReadsBack deferRequest r
  writeEvents : ∀ es : List Event, (∀ e ∈ es, e.WellFormed ∧ e.isDoubleFree = true) →
    (writeEvents.encode es).depth ≤ 127 → ReadsBack writeEvents es
  storeSnapshot : ∀ s : Snapshot, s.WellFormed → s.isDoubleFree = true →
    (storeSnapshot.encode s).depth ≤ 127 → ReadsBack storeSnapshot s
  performReplay : ∀ ws : List ReplayWindow, (∀ w ∈ ws, w.Fits) → ReadsBack performReplay ws
  replayReport : ∀ r : ReplayReport, r.Fits → ReadsBack replayReport r
  errorBody : ∀ b : ErrorBody, ReadsBack errorBody b
  /-- The body of a refusal says which code and message it was made of. -/
  refusal : ∀ code message, ∃ v, (Http.Response.refusal code message).content = .json v ∧
    Wire.errorBody.read v.compact = .ok ⟨code, message⟩
  /-- An event that a request brings in is read from a response, bare or with a lock. -/
  acceptedEvent : ∀ text es, Wire.writeEvents.decode.leading text = .ok es →
    ∀ e ∈ es, e.isDoubleFree = true →
      ReadsBack Wire.event e ∧ ∀ l, ReadsBack Wire.awaitedItem ⟨e, l⟩
  /-- A snapshot that a request brings in is read from a response. -/
  acceptedSnapshot : ∀ text s, Wire.storeSnapshot.decode.leading text = .ok s →
    s.isDoubleFree = true → ReadsBack Wire.snapshot s

/-- **Wire encodings round-trip.** What is written is read as it was, and what was accepted from a
request never becomes unreadable in a response. -/
theorem wire_round_trips : RoundTrips where
  event e h hfree := readsBack_of_keeps (event_keeps h hfree)
  aggregate a := readsBack_of_keeps (aggregate_keeps a) (show 1 ≤ 127 by decide)
  snapshot s h hfree := readsBack_of_keeps (snapshot_keeps h hfree)
  awaitedItem a h hfree := readsBack_of_keeps (awaitedItem_keeps h hfree)
  lock l := readsBack_of_keeps (lock_keeps l) (show 1 ≤ 127 by decide)
  deferRequest r h := readsBack_of_keeps (deferRequest_keeps h) (show 1 ≤ 127 by decide)
  writeEvents es h :=
    readsBack_of_keeps (writeEvents_keeps (fun e he => (h e he).1) fun e he => (h e he).2)
  storeSnapshot s h hfree := readsBack_of_keeps (storeSnapshot_keeps h hfree)
  performReplay ws h :=
    readsBack_of_keeps (performReplay_keeps h)
      (Nat.le_trans (depth_performReplay_le ws) (by decide))
  replayReport r h := readsBack_of_keeps (replayReport_keeps h) (show 1 ≤ 127 by decide)
  errorBody b := readsBack_of_keeps (errorBody_keeps b) (show 1 ≤ 127 by decide)
  refusal code message :=
    ⟨_, rfl, (readsBack_of_keeps (errorBody_keeps ⟨code, message⟩) (show 1 ≤ 127 by decide)).1⟩
  acceptedEvent text es hread e he hfree := by
    obtain ⟨hwf, hdepth⟩ := yielded (writeEvents_yields _) hread e he
    rw [Decoder.depthLimit] at hdepth
    refine ⟨readsBack_of_keeps (event_keeps hwf hfree) (by omega), fun l => ?_⟩
    refine readsBack_of_keeps (awaitedItem_keeps hwf hfree) ?_
    rw [depth_awaitedItem]
    dsimp only
    omega
  acceptedSnapshot text s hread hfree := by
    obtain ⟨hwf, hdepth⟩ := yielded (storeSnapshot_yields _) hread
    rw [Decoder.depthLimit] at hdepth
    exact readsBack_of_keeps (snapshot_keeps hwf hfree) (by omega)

/-- An event with a text of two lines among its data. -/
def noted : Event :=
  Event.create .zero 5 ⟨"shop"⟩ ⟨"order", .zero⟩ "noted"
    (.object [("count", .int (-3)), ("text", .array [.string "two\nlines", .null])]) 1

theorem wire_round_trips_of_noted :
    (noted.WellFormed ∧ noted.isDoubleFree = true ∧ (event.encode noted).depth ≤ 127) ∧
      ReadsBack event noted := by
  have hwf : noted.WellFormed := by
    refine ⟨by decide, by decide, .object ?_ ?_, .object ?_ ?_⟩
    · exact List.pairwise_singleton ..
    · exact List.forall_mem_singleton.2 (.string _)
    · unfold ByName.Ascending
      decide
    · refine List.forall_mem_cons.2
        ⟨.number ⟨by decide, by decide⟩, List.forall_mem_singleton.2 (.array ?_)⟩
      exact List.forall_mem_cons.2 ⟨.string _, List.forall_mem_singleton.2 .null⟩
  have hdepth : (event.encode noted).depth ≤ 127 := by decide
  exact ⟨⟨hwf, rfl, hdepth⟩, wire_round_trips.event noted hwf rfl hdepth⟩

end EventRelay.Wire
