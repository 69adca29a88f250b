import EventRelay.Client.Stream
import EventRelay.Proofs.Text.Utf8
import EventRelay.Proofs.Wire.Values

/-!
# Reading what was sent line by line

A client reads from a body of lines the items that the server framed, however the bytes were cut
into chunks on the way. The text of a value has no line feed, so a line feed ends a frame and
nothing else does; an item is an object of at least two members, so it is neither blank nor a
heartbeat, whatever its strings say. A body that was aborted is never taken for a shorter one.
-/

namespace EventRelay

open Json (Codec)

/-! ## Chunks -/

namespace Client.Arrival

/-- `feed` goes on where it stopped, so only the bytes count and not how they were cut. -/
theorem feed_append (begun xs ys : List UInt8) :
    feed begun (xs ++ ys) = ((feed begun xs).1 ++ (feed (feed begun xs).2 ys).1,
      (feed (feed begun xs).2 ys).2) := by
  induction xs generalizing begun with
  | nil => rfl
  | cons b xs ih =>
    rw [List.cons_append, feed, feed]
    split
    · rw [ih]
      rfl
    · exact ih _

theorem piecesFrom_eq (begun : List UInt8) (ending : Ending) (chunks : List (List UInt8)) :
    piecesFrom begun ending chunks =
      (feed begun chunks.flatten).1.map .line ++ tail (feed begun chunks.flatten).2 ending := by
  induction chunks generalizing begun with
  | nil => rfl
  | cons chunk chunks ih =>
    show (feed begun chunk).1.map .line ++ piecesFrom (feed begun chunk).2 ending chunks = _
    rw [List.flatten_cons, feed_append, ih, List.map_append, List.append_assoc]

/-- The pieces of an `Arrival` are those of its bytes in one chunk. -/
theorem pieces_eq (a : Arrival) :
    a.pieces = (feed [] a.bytes).1.map .line ++ tail (feed [] a.bytes).2 a.ending :=
  piecesFrom_eq [] a.ending a.chunks

theorem feed_line {bytes : List UInt8} (h : lineFeed ∉ bytes) (begun rest : List UInt8) :
    feed begun (bytes ++ lineFeed :: rest) =
      ((begun ++ bytes) :: (feed [] rest).1, (feed [] rest).2) := by
  induction bytes generalizing begun with
  | nil => simp [feed]
  | cons b bytes ih =>
    obtain ⟨hne, hrest⟩ := List.ne_and_not_mem_of_not_mem_cons h
    rw [List.cons_append, feed, if_neg (Ne.symm hne), ih hrest, List.append_assoc,
      List.singleton_append]

/-- Lines without a line feed in them, each ended by one, come apart again. -/
theorem feed_lines {lines : List (List UInt8)} (h : ∀ line ∈ lines, lineFeed ∉ line) :
    feed [] (lines.flatMap fun line => line ++ [lineFeed]) = (lines, []) := by
  induction lines with
  | nil => rfl
  | cons line lines ih =>
    obtain ⟨hline, hlines⟩ := List.forall_mem_cons.1 h
    rw [List.flatMap_cons, List.append_assoc, List.singleton_append, feed_line hline, ih hlines,
      List.nil_append]

end Client.Arrival

/-! ## The line of a value -/

namespace Client

variable {α : Type} {c : Codec α} {a : α} {v : Json}

/-- A compact text holds no line feed: in strings it is escaped. -/
theorem lineFeed_not_mem (hv : v.Exact) : Arrival.lineFeed ∉ Text.utf8 v.compact := by
  intro h
  rw [Json.compact, Text.utf8_ofList] at h
  obtain ⟨c, hc, hb⟩ := List.mem_flatMap.1 h
  have heq := Text.mem_encode_of_lt hb (by decide)
  have hge := Json.printable_toChars v hv c hc
  rw [heq] at hge
  exact absurd hge (by decide)

theorem utf8_line (f : Frame Json) : Text.utf8 (Ndjson.line f) =
    Text.utf8 (Ndjson.frameValue f).compact ++ [Arrival.lineFeed] := by
  rw [Ndjson.line, Text.utf8_append]
  exact congrArg _ (Text.utf8_eq "\n")

theorem not_blank (members : List (String × Json)) :
    (Text.utf8 (Json.object members).compact).all Stream.isBlank = false := by
  have hbrace : ∃ rest, Json.toChars (.object members) = '\x7b' :: rest := by
    cases members with
    | nil => exact ⟨_, rfl⟩
    | cons member members => exact ⟨_, rfl⟩
  obtain ⟨rest, hrest⟩ := hbrace
  rw [Json.compact, Text.utf8_ofList, hrest, List.flatMap_cons]
  rfl

/-- An object of two members is not `Stream.isHeartbeat`, whatever its members are. -/
theorem not_isHeartbeat {members : List (String × Json)} (hnames : (ByName.names members).Nodup)
    (htwo : 2 ≤ members.length) : Stream.isHeartbeat (Json.object members).canonical = false := by
  have hgather := @ByName.perm_insertAll _ [] (members.map fun m => (m.1, m.2.canonical)) <| by
    rwa [List.nil_append, ByName.names, List.map_map]
  have hlength := hgather.length_eq
  rw [List.nil_append, List.length_map] at hlength
  rw [Json.canonical_object]
  unfold Stream.isHeartbeat
  split
  · next heq =>
    rw [Json.object.inj heq, List.length_singleton] at hlength
    omega
  · rfl

/-- A value that a stream carries as an item: its codec `Keeps` it, and it is an object of two or
more members. -/
structure Carried (c : Codec α) (a : α) : Prop where
  keeps : c.Keeps a
  depth_le : (c.encode a).depth ≤ 127
  record : ∃ members, c.encode a = .object members ∧ (ByName.names members).Nodup ∧
    2 ≤ members.length

/-- A line with a value that is `Carried` is taken for that value. -/
theorem Carried.ofLine_eq (h : Carried c a) :
    Stream.ofLine c (Text.utf8 (c.encode a).compact) = some (.ok a) := by
  obtain ⟨members, heq, hnames, htwo⟩ := h.record
  have hdepth := Nat.lt_succ_of_le h.depth_le
  have hblank := not_blank members
  have hbeat := not_isHeartbeat hnames htwo
  rw [← heq] at hblank hbeat
  have hfree : Json.Codec.free.read (c.encode a).compact = .ok (c.encode a).canonical :=
    h.keeps.free_read_write hdepth
  rw [Stream.ofLine, if_neg (by rw [hblank]; decide), Text.ofUtf8?_utf8, Option.map_some, hfree]
  simp only [hbeat, Bool.false_eq_true, if_false, h.keeps.ofJson_canonical hdepth]

/-- Values of a record type of two fields or more are `Carried`, if the codec keeps them and they
are not too deep. -/
theorem carried_of_record {fs : List Json.Field} {ofValues : Json.Values fs → α}
    {values : α → Json.Values fs} {a : α} (hnames : (fs.map (·.name)).Nodup)
    (htwo : 2 ≤ fs.length) (hkeeps : (Codec.record fs ofValues values).Keeps a)
    (hdepth : ((Codec.record fs ofValues values).encode a).depth ≤ 127) :
    Carried (Codec.record fs ofValues values) a := by
  have hmembers := Json.names_members (values a)
  refine ⟨hkeeps, hdepth, _, rfl, hmembers.symm ▸ hnames, ?_⟩
  have hlength := congrArg List.length hmembers
  rw [ByName.names, List.length_map, List.length_map] at hlength
  rwa [hlength]

theorem heartbeat_wellFormed : Ndjson.heartbeatValue.WellFormed :=
  .object (List.pairwise_singleton ..) (List.forall_mem_singleton.2 (.string _))

/-- The line of a heartbeat is left out, whatever items are read. -/
theorem ofLine_heartbeat (c : Codec α) :
    Stream.ofLine c (Text.utf8 Ndjson.heartbeatValue.compact) = none := by
  have hkeeps := Json.Codec.free_keeps heartbeat_wellFormed rfl
  have hfree : Json.Codec.free.read Ndjson.heartbeatValue.compact = .ok Ndjson.heartbeatValue :=
    hkeeps.read_write (by decide)
  have hbeat : Stream.isHeartbeat Ndjson.heartbeatValue = true := rfl
  have hblank := not_blank [("name", .string "heartbeat")]
  rw [Stream.ofLine, if_neg (by rw [Ndjson.heartbeatValue, hblank]; decide), Text.ofUtf8?_utf8,
    Option.map_some, hfree]
  simp only [hbeat, if_true]

/-! ## Whole bodies -/

end Client

/-- The `Frame` with its item written by a codec. -/
def Frame.encode {α : Type} (c : Codec α) : Frame α → Frame Json
  | .heartbeat => .heartbeat
  | .item a => .item (c.encode a)

/-- The item of a `Frame`. -/
def Frame.item? {α : Type} : Frame α → Option α
  | .heartbeat => none
  | .item a => some a

/-- The `Ndjson.body` of frames, up to the first failure. -/
def Ndjson.bodyOf {α ε : Type} (c : Codec α) (results : List (Except ε (Frame α))) : Body ε :=
  body (results.map fun result => result.map (Frame.encode c))

/-- The bytes of an `Ndjson.Body` as far as it goes. -/
def Ndjson.Body.bytes {ε : Type} (b : Body ε) : List UInt8 := b.lines.flatMap Text.utf8

namespace Client

variable {α ε : Type} {c : Codec α}

/-- What arrives of a body: all of it in order, unless it was aborted, and else whatever came before
the connection broke. -/
structure Delivers (b : Ndjson.Body ε) (body : Arrival) : Prop where
  whole : b.abortedBy = none → body.ending = .complete ∧ body.bytes = b.bytes
  aborted : ∀ e, b.abortedBy = some e → body.ending = .cutOff

theorem bodyOf_cons (c : Codec α) (f : Frame α) (rest : List (Except ε (Frame α))) :
    Ndjson.bodyOf c (.ok f :: rest) =
      ⟨Ndjson.line (f.encode c) :: (Ndjson.bodyOf c rest).lines,
        (Ndjson.bodyOf c rest).abortedBy⟩ :=
  rfl

theorem bodyOf_ok (c : Codec α) (frames : List (Frame α)) :
    Ndjson.bodyOf c (frames.map .ok : List (Except ε (Frame α))) =
      ⟨frames.map fun f => Ndjson.line (f.encode c), none⟩ := by
  induction frames with
  | nil => rfl
  | cons f frames ih => rw [List.map_cons, bodyOf_cons, ih, List.map_cons]

theorem abortedBy_bodyOf (c : Codec α) (frames : List (Frame α)) (e : ε)
    (rest : List (Except ε (Frame α))) :
    (Ndjson.bodyOf c (frames.map .ok ++ .error e :: rest)).abortedBy = some e := by
  induction frames with
  | nil => rfl
  | cons f frames ih => rw [List.map_cons, List.cons_append, bodyOf_cons, ih]

/-- A complete body is read line by line by `Stream.ofLine`. -/
theorem values_eq_of_lines {body : Arrival} {lines : List (List UInt8)}
    (hlines : ∀ line ∈ lines, Arrival.lineFeed ∉ line) (hending : body.ending = .complete)
    (hbytes : body.bytes = lines.flatMap fun line => line ++ [Arrival.lineFeed]) :
    Stream.values c body = lines.filterMap (Stream.ofLine c) := by
  rw [Stream.values, Arrival.pieces_eq, hbytes, Arrival.feed_lines hlines, hending, Arrival.tail]
  simp only [List.isEmpty_nil, if_true, List.append_nil, List.filterMap_map]
  rfl

/-- The bytes before the line feed of a frame. -/
def frameBytes (c : Codec α) (f : Frame α) : List UInt8 :=
  Text.utf8 (Ndjson.frameValue (f.encode c)).compact

theorem bytes_bodyOf (c : Codec α) (frames : List (Frame α)) :
    (Ndjson.bodyOf c (frames.map .ok : List (Except ε (Frame α)))).bytes =
      (frames.map (frameBytes c)).flatMap fun line => line ++ [Arrival.lineFeed] := by
  rw [bodyOf_ok, Ndjson.Body.bytes, List.flatMap_map, List.flatMap_map]
  exact congrArg (List.flatMap · frames) (funext fun f => utf8_line (f.encode c))

/-- The bytes of a frame are one line, and it is read as the item of the frame if that is
`Carried`. -/
theorem frameBytes_spec {f : Frame α} (h : ∀ a ∈ f.item?, Carried c a) :
    Arrival.lineFeed ∉ frameBytes c f ∧
      Stream.ofLine c (frameBytes c f) = f.item?.map .ok := by
  cases f with
  | heartbeat =>
    exact ⟨lineFeed_not_mem (heartbeat_wellFormed.exact rfl), ofLine_heartbeat c⟩
  | item a => exact ⟨lineFeed_not_mem (h a rfl).keeps.exact, (h a rfl).ofLine_eq⟩

/-- A client reads just the items, in order, of a body that was framed of items that are
`Carried`. -/
theorem values_of_frames {frames : List (Frame α)}
    (h : ∀ a ∈ frames.filterMap Frame.item?, Carried c a) {body : Arrival}
    (hbody : Delivers (Ndjson.bodyOf c (frames.map .ok : List (Except ε (Frame α)))) body) :
    Stream.values c body = (frames.filterMap Frame.item?).map .ok := by
  have hframe : ∀ f ∈ frames, ∀ a ∈ f.item?, Carried c a := fun f hf a ha =>
    h a (List.mem_filterMap.2 ⟨f, hf, ha⟩)
  have hlines : ∀ line ∈ frames.map (frameBytes c), Arrival.lineFeed ∉ line := by
    intro line hline
    obtain ⟨f, hf, rfl⟩ := List.mem_map.1 hline
    exact (frameBytes_spec (hframe f hf)).1
  obtain ⟨hending, hbytes⟩ := hbody.whole (by rw [bodyOf_ok])
  rw [bytes_bodyOf] at hbytes
  rw [values_eq_of_lines hlines hending hbytes, List.filterMap_map, List.map_filterMap]
  exact List.filterMap_congr fun f hf => (frameBytes_spec (hframe f hf)).2

theorem mapM_ok {β γ : Type} (as : List β) :
    (as.map .ok : List (Except γ β)).mapM id = .ok as := by
  induction as with
  | nil => rfl
  | cons a as ih =>
    rw [List.map_cons, List.mapM_cons, ih]
    rfl

theorem exists_mapM_eq_error {β γ : Type} {results : List (Except γ β)} {e : γ}
    (h : .error e ∈ results) : ∃ e', results.mapM id = .error e' := by
  induction results with
  | nil => cases h
  | cons result results ih =>
    rw [List.mapM_cons]
    cases result with
    | error e' => exact ⟨e', rfl⟩
    | ok b =>
      obtain ⟨e', he'⟩ := ih ((List.mem_cons.1 h).resolve_left nofun)
      exact ⟨e', by rw [he']; rfl⟩

/-- `Stream.collect` of a body that was cut off is an error, whatever came of it. -/
theorem exists_collect_eq_error (c : Codec α) {body : Arrival} (h : body.ending = .cutOff) :
    ∃ failure, Stream.collect c body = .error failure := by
  refine exists_mapM_eq_error (e := .broken) ?_
  rw [Stream.values, Arrival.pieces_eq, h, List.filterMap_append]
  exact List.mem_append_right _ List.mem_cons_self

/-- The client undoes the server for the items of one type that fit. -/
structure Undone (c : Codec α) (Fits : α → Prop) : Prop where
  /-- What arrives whole, in whatever chunks, is collected as the items that were sent. -/
  collects : ∀ (ε : Type) (frames : List (Frame α)) (body : Arrival),
    (∀ a ∈ frames.filterMap Frame.item?, Fits a) →
    Delivers (Ndjson.bodyOf c (frames.map .ok : List (Except ε (Frame α)))) body →
    Stream.collect c body = .ok (frames.filterMap Frame.item?)
  /-- An error aborts the body, and what arrives of it is collected as an error. -/
  fails : ∀ (ε : Type) (frames : List (Frame α)) (e : ε) (rest : List (Except ε (Frame α))),
    (Ndjson.bodyOf c (frames.map .ok ++ .error e :: rest)).abortedBy = some e ∧
      ∀ body, Delivers (Ndjson.bodyOf c (frames.map .ok ++ .error e :: rest)) body →
        ∃ failure, Stream.collect c body = .error failure

/-- If the items that fit are `Carried`, the client undoes the server for them. -/
theorem undone_of_carried {Fits : α → Prop} (h : ∀ a, Fits a → Carried c a) : Undone c Fits where
  collects ε frames body hfits hbody := by
    rw [Stream.collect, values_of_frames (fun a ha => h a (hfits a ha)) hbody, mapM_ok]
  fails ε frames e rest := by
    have haborted := abortedBy_bodyOf c frames e rest
    exact ⟨haborted, fun body hbody => exists_collect_eq_error c (hbody.aborted e haborted)⟩

/-- What a client makes of a body that `Ndjson.bodyOf` framed, type by type. -/
structure Undoes : Prop where
  events : Undone Wire.event fun e =>
    e.WellFormed ∧ e.isDoubleFree = true ∧ (Wire.event.encode e).depth ≤ 127
  aggregates : Undone Wire.aggregate fun _ => True
  awaitedItems : Undone Wire.awaitedItem fun a =>
    a.item.WellFormed ∧ a.item.isDoubleFree = true ∧ (Wire.awaitedItem.encode a).depth ≤ 127
  /-- Bytes of any kind give the same values one after the other in any chunks, and so the same
  collection and the same first value. -/
  anyChunks : ∀ (α : Type) (c : Codec α) (body body' : Arrival), body.bytes = body'.bytes →
    body.ending = body'.ending → Stream.values c body = Stream.values c body' ∧
      Stream.collect c body = Stream.collect c body' ∧ Stream.first c body = Stream.first c body'

/-- **The client undoes the server's framing.** Whatever the strings of the items say, and however
the bytes are cut. -/
theorem client_undoes_server : Undoes where
  events := undone_of_carried fun _ ⟨h, hfree, hdepth⟩ =>
    carried_of_record (by decide) (by decide) (Wire.event_keeps h hfree) hdepth
  aggregates := undone_of_carried fun a _ =>
    carried_of_record (by decide) (by decide) (Wire.aggregate_keeps a) (show 1 ≤ 127 by decide)
  awaitedItems := undone_of_carried fun _ ⟨h, hfree, hdepth⟩ =>
    carried_of_record (by decide) (by decide) (Wire.awaitedItem_keeps h hfree) hdepth
  anyChunks α c body body' hbytes hending := by
    have hpieces : body.pieces = body'.pieces := by
      rw [Arrival.pieces_eq, Arrival.pieces_eq, hbytes, hending]
    have hvalues : Stream.values c body = Stream.values c body' := by
      rw [Stream.values, Stream.values, hpieces]
    refine ⟨hvalues, ?_, ?_⟩
    · rw [Stream.collect, Stream.collect, hvalues]
    · rw [Stream.first, Stream.first, hvalues]

/-- A heartbeat and an aggregate with the name of one, byte by byte. -/
theorem client_undoes_server_of_bytes :
    ∃ body : Arrival, (∀ chunk ∈ body.chunks, chunk.length = 1) ∧
      Delivers (Ndjson.bodyOf Wire.aggregate
        ([.heartbeat, .item ⟨"heartbeat\n", .zero⟩].map .ok : List (Except Unit _))) body ∧
      Stream.collect Wire.aggregate body = .ok [⟨"heartbeat\n", .zero⟩] := by
  let sent := Ndjson.bodyOf Wire.aggregate
    ([.heartbeat, .item ⟨"heartbeat\n", .zero⟩].map .ok : List (Except Unit _))
  let body : Arrival := ⟨sent.bytes.map fun b => [b], .complete⟩
  have hbytes : body.bytes = sent.bytes := by
    rw [Arrival.bytes, ← List.flatMap_def]
    exact List.flatMap_singleton' _
  have hdelivers : Delivers sent body := ⟨fun _ => ⟨rfl, hbytes⟩, fun e he => by cases he⟩
  refine ⟨body, fun chunk hchunk => ?_, hdelivers, ?_⟩
  · obtain ⟨b, -, rfl⟩ := List.mem_map.1 hchunk
    rfl
  · exact client_undoes_server.aggregates.collects Unit _ body (fun _ _ => trivial) hdelivers

end Client

end EventRelay
