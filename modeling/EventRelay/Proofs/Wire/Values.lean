import EventRelay.Proofs.Json.Keeping
import EventRelay.Proofs.Uuid
import EventRelay.Wire.Codecs

/-!
# Wire types keep their values

Which values of the wire types a program can hold, and that their codecs keep them as far as no
free value inside holds a double. Only the free values of events and snapshots can nest; all other
documents are at most four levels deep.
-/

namespace EventRelay

/-- An event that a program can hold: its numbers are of 64 bits, and its values are
`Json.WellFormed`. -/
structure Event.WellFormed (e : Event) : Prop where
  timestamp : -2 ^ 63 ≤ e.timestamp ∧ e.timestamp < 2 ^ 63
  revision : e.revision < 2 ^ 64
  claims : e.metadata.initiator.claims.WellFormed
  data : e.data.WellFormed

/-- The event holds no double: `Json.isDoubleFree`, for what nests in it. -/
def Event.isDoubleFree (e : Event) : Bool :=
  e.metadata.initiator.claims.isDoubleFree && e.data.isDoubleFree

/-- A snapshot that a program can hold: its revision is of 64 bits, and its state is
`Json.WellFormed`. -/
structure Snapshot.WellFormed (s : Snapshot) : Prop where
  revision : s.revision < 2 ^ 64
  state : s.state.WellFormed

/-- The snapshot holds no double: `Json.isDoubleFree`, for its state. -/
def Snapshot.isDoubleFree (s : Snapshot) : Bool := s.state.isDoubleFree

/-- A window whose bounds are of 64 bits. -/
def ReplayWindow.Fits (w : ReplayWindow) : Prop := w.first < 2 ^ 64 ∧ w.last < 2 ^ 64

/-- A report whose counts are of 64 bits. -/
def ReplayReport.Fits (r : ReplayReport) : Prop := r.enqueued < 2 ^ 64 ∧ r.alreadyQueued < 2 ^ 64

namespace Wire

open Json (Codec Decoder Values)
open Json.Codec

theorem uuid_keeps (u : Uuid) : uuid.Keeps u := text_keeps (Uuid.parse?_toString u)

theorem errorCode_keeps (c : ErrorCode) : errorCode.Keeps c := text_keeps c.ofText?_text

/-! ## Events and snapshots -/

theorem context_keeps (c : Context) : context.Keeps c :=
  record_keeps (by decide) ⟨string_keeps _, trivial⟩ rfl

theorem aggregate_keeps (a : Aggregate) : aggregate.Keeps a :=
  record_keeps (by decide) ⟨string_keeps _, uuid_keeps _, trivial⟩ rfl

theorem user_keeps {u : String × Json} (h : u.2.WellFormed) (hfree : u.2.isDoubleFree = true) :
    user.Keeps u :=
  record_keeps (by decide) ⟨string_keeps _, free_keeps h hfree, trivial⟩ rfl

theorem initiator_keeps {i : Initiator} (h : i.claims.WellFormed)
    (hfree : i.claims.isDoubleFree = true) : initiator.Keeps i :=
  record_keeps (by decide) ⟨user_keeps h hfree, trivial⟩ rfl

theorem tags_keeps (tags : List String) : (list string).Keeps tags :=
  list_keeps fun tag _ => string_keeps tag

/-- Metadata is kept if its numbers are of 64 bits and its claims hold no double. -/
theorem metadata_keeps {m : Metadata} (htimestamp : -2 ^ 63 ≤ m.timestamp ∧ m.timestamp < 2 ^ 63)
    (hrevision : m.revision < 2 ^ 64) (hclaims : m.initiator.claims.WellFormed)
    (hfree : m.initiator.claims.isDoubleFree = true) : metadata.Keeps m :=
  record_keeps (by decide)
    ⟨uuid_keeps _, uuid_keeps _, int64_keeps htimestamp, nat64_keeps hrevision,
      initiator_keeps hclaims hfree, tags_keeps _, trivial⟩ rfl

/-- The codec of events `Keeps` each that a program can hold and that holds no double. -/
theorem event_keeps {e : Event} (h : e.WellFormed) (hfree : e.isDoubleFree = true) :
    event.Keeps e := by
  rw [Event.isDoubleFree, Bool.and_eq_true] at hfree
  exact record_keeps (by decide)
    ⟨context_keeps _, aggregate_keeps _, string_keeps _, uuid_keeps _,
      free_keeps h.data hfree.2, metadata_keeps h.timestamp h.revision h.claims hfree.1,
      trivial⟩ rfl

/-- The codec of snapshots `Keeps` each that a program can hold and that holds no double. -/
theorem snapshot_keeps {s : Snapshot} (h : s.WellFormed) (hfree : s.isDoubleFree = true) :
    snapshot.Keeps s :=
  record_keeps (by decide)
    ⟨aggregate_keeps _, nat64_keeps h.revision, free_keeps h.state hfree, trivial⟩ rfl

/-! ## Items and locks -/

theorem lock_keeps (l : Lock) : lock.Keeps l :=
  record_keeps (by decide) ⟨string_keeps _, uuid_keeps _, trivial⟩ rfl

theorem awaitedItem_keeps {a : AwaitedItem} (h : a.item.WellFormed)
    (hfree : a.item.isDoubleFree = true) : awaitedItem.Keeps a :=
  record_keeps (by decide) ⟨event_keeps h hfree, lock_keeps _, trivial⟩ rfl

/-- The priority may stand anywhere between the members of the lock: `Awaits` asks for no order. -/
theorem deferRequest_keeps {r : DeferRequest} (h : -2 ^ 63 ≤ r.priority ∧ r.priority < 2 ^ 63) :
    deferRequest.Keeps r := by
  have hpriority : ∀ others, Decoder.ReadsMember DeferRequest.member ⟨none, others⟩ "priority"
      (.int r.priority) ⟨some r.priority, others⟩ := by
    intro others depth rest hdepth
    simp [DeferRequest.member, Decoder.andThen, Decoder.result,
      (Decoder.int64_reads h).afterColon depth rest hdepth]
  have hother : ∀ (d : DeferRequest.Draft) (name s : String), name ≠ "priority" →
      Decoder.ReadsMember DeferRequest.member d name (.string s)
        { d with others := d.others ++ [(name, .string s)] } := by
    intro d name s hname depth rest hdepth
    simp [DeferRequest.member, Decoder.andThen, Decoder.result, hname,
      (Decoder.value_reads (.string s)).afterColon depth rest hdepth, Json.canonical]
  have hcomplete : DeferRequest.complete? ⟨some r.priority,
      [("discriminator", .string r.lock.lane), ("token", .string r.lock.token.toString)]⟩ =
        some r := by
    simp [DeferRequest.complete?, DeferRequest.onlyString?, Uuid.parse?_toString]
  refine ⟨.object ?_, ?_, ?_⟩
  · exact List.forall_mem_cons.2 ⟨.string _, List.forall_mem_cons.2 ⟨.string _,
      List.forall_mem_singleton.2 (.whole ⟨h.1, by omega⟩)⟩⟩
  · exact (Decoder.object_reads (.cons (hother {} "discriminator" r.lock.lane (by decide))
      (.cons (hother _ "token" r.lock.token.toString (by decide))
        (.cons (hpriority _) (.nil _))))).refine hcomplete
  · exact (Decoder.object_reads (.cons (hother {} "discriminator" r.lock.lane (by decide))
      (.cons (hpriority _)
        (.cons (hother _ "token" r.lock.token.toString (by decide)) (.nil _))))).refine hcomplete

/-! ## Requests, reports and refusals -/

theorem writeEvents_keeps {es : List Event} (h : ∀ e ∈ es, e.WellFormed)
    (hfree : ∀ e ∈ es, e.isDoubleFree = true) : writeEvents.Keeps es :=
  record_keeps (by decide)
    ⟨list_keeps fun e he => event_keeps (h e he) (hfree e he), trivial⟩ rfl

theorem storeSnapshot_keeps {s : Snapshot} (h : s.WellFormed) (hfree : s.isDoubleFree = true) :
    storeSnapshot.Keeps s :=
  record_keeps (by decide) ⟨snapshot_keeps h hfree, trivial⟩ rfl

theorem replayWindow_keeps {w : ReplayWindow} (h : w.Fits) : replayWindow.Keeps w :=
  record_keeps (by decide)
    ⟨context_keeps _, aggregate_keeps _, nat64_keeps h.1, nat64_keeps h.2, trivial⟩ rfl

/-- A request to replay is kept if each window `Fits`. -/
theorem performReplay_keeps {ws : List ReplayWindow} (h : ∀ w ∈ ws, w.Fits) :
    performReplay.Keeps ws :=
  record_keeps (by decide) ⟨list_keeps fun w hw => replayWindow_keeps (h w hw), trivial⟩ rfl

theorem replayReport_keeps {r : ReplayReport} (h : r.Fits) : replayReport.Keeps r :=
  record_keeps (by decide) ⟨nat64_keeps h.1, nat64_keeps h.2, trivial⟩ rfl

theorem errorBody_keeps (b : ErrorBody) : errorBody.Keeps b :=
  record_keeps (by decide) ⟨errorCode_keeps _, string_keeps _, trivial⟩ rfl

/-! ## Depth -/

theorem depth_lock (l : Lock) : (lock.encode l).depth = 1 := rfl

theorem depth_tags (tags : List String) : ((list string).encode tags).depth = 1 := by
  refine congrArg Nat.succ (Nat.lt_one_iff.1 ((Json.itemsDepth_lt_iff Nat.one_pos).2 ?_))
  intro v hv
  obtain ⟨tag, -, rfl⟩ := List.mem_map.1 hv
  exact Nat.one_pos

/-- Claims stand two levels inside of an initiator. -/
theorem depth_initiator (i : Initiator) : (initiator.encode i).depth = i.claims.depth + 2 := by
  show max (max 0 (max i.claims.depth 0) + 1) 0 + 1 = _
  omega

theorem depth_metadata (m : Metadata) :
    (metadata.encode m).depth = m.initiator.claims.depth + 3 := by
  show max 0 (max 0 (max 0 (max 0 (max (initiator.encode m.initiator).depth
    (max ((list string).encode m.tags).depth 0))))) + 1 = _
  rw [depth_initiator, depth_tags]
  omega

/-- What nests in an event are its data and, three levels further in, the claims. -/
theorem depth_event (e : Event) : (event.encode e).depth =
    max (e.data.depth + 1) (e.metadata.initiator.claims.depth + 4) := by
  show max 1 (max 1 (max 0 (max 0 (max e.data.depth
    (max (metadata.encode e.metadata).depth 0))))) + 1 = _
  rw [depth_metadata]
  omega

theorem depth_snapshot (s : Snapshot) :
    (snapshot.encode s).depth = max (s.state.depth + 1) 2 := by
  show max 1 (max 0 (max s.state.depth 0)) + 1 = _
  omega

theorem depth_awaitedItem (a : AwaitedItem) :
    (awaitedItem.encode a).depth = (event.encode a.item).depth + 1 := by
  show max (event.encode a.item).depth (max (lock.encode a.lock).depth 0) + 1 = _
  rw [depth_event, depth_lock]
  omega

theorem depth_performReplay_le (ws : List ReplayWindow) : (performReplay.encode ws).depth ≤ 4 := by
  have hwindow : ∀ v ∈ ws.map replayWindow.encode, v.depth < 3 := by
    intro v hv
    obtain ⟨w, -, rfl⟩ := List.mem_map.1 hv
    exact Nat.lt_succ_self 2
  have hitems := (Json.itemsDepth_lt_iff (by decide)).2 hwindow
  show max (Json.itemsDepth (ws.map replayWindow.encode) + 1) 0 + 1 ≤ 4
  omega

end Wire

end EventRelay
