import EventRelay.Config
import EventRelay.Proofs.Flow.Configured
import EventRelay.Proofs.Text.Numerals

/-!
# Which settings are accepted

Each setting has a condition of its own on the values of the variables. They are accepted exactly if
all conditions are met, and then the configuration holds what the variables say and the defaults for
the others. Otherwise the error is about the first setting, in their order, whose condition is not
met.
-/

namespace EventRelay

/-- The settings in the order in which `Config.ofLookup` reads them. -/
inductive Setting where
  | port
  | expiration
  | recovery
  | heartbeat
  | poll
  | persistence
  | database
  | flows
  deriving DecidableEq, Repr

namespace Setting

/-- The variable of a `Setting`. -/
def key : Setting → String
  | port => "AEON_PORT"
  | expiration => "AEON_EXPIRATION_TIME_MS"
  | recovery => "AEON_MISSED_DOMAIN_EVENT_RECOVERY_INTERVAL_MS"
  | heartbeat => "AEON_HEARTBEAT_INTERVAL_MS"
  | poll => "AEON_QUEUE_POLL_INTERVAL_MS"
  | persistence => "AEON_USE_PERSISTENT_STORES"
  | database => "DATABASE_URL"
  | flows => "AEON_FLOWS"

/-- All settings, in the order in which `ofLookup` reads them. -/
def all : List Setting :=
  [port, expiration, recovery, heartbeat, poll, persistence, database, flows]

end Setting

namespace Config

variable {lookup : Lookup} {key raw : String} {limit default n : Nat} {b : Bool}
  {url : Option String} {registry : Registry} {c : Config} {e : ConfigError} {s : Setting}

/-! ## What the variables say -/

/-- The variable is not set and the number is the default, or the value trims to a numeral of the
number, which is in range. -/
def NumberIs (lookup : Lookup) (key : String) (low high default n : Nat) : Prop :=
  (lookup key = none ∧ n = default) ∨
    ∃ raw, lookup key = some raw ∧ Text.Numeral (Text.trim raw) n ∧ low ≤ n ∧ n ≤ high

/-- `NumberIs` for an interval in milliseconds, which is positive and has 64 bits. -/
def IntervalIs (lookup : Lookup) (key : String) (default n : Nat) : Prop :=
  NumberIs lookup key 1 (2 ^ 64 - 1) default n

/-- The variable is not set and the truth value is the default, or the value trims to `true` or
`false`. -/
def TruthIs (lookup : Lookup) (key : String) (default b : Bool) : Prop :=
  (lookup key = none ∧ b = default) ∨ ∃ raw, lookup key = some raw ∧
    (Text.trim raw = "true" ∧ b = true ∨ Text.trim raw = "false" ∧ b = false)

/-- The variable has this value, and it is not blank. -/
def Filled (lookup : Lookup) (key raw : String) : Prop :=
  lookup key = some raw ∧ Text.isBlank raw = false

/-- The variable is not set or blank and no flow is registered, or the value is an object of arrays
of strings, of which the last under each name is accepted, and the registry holds these. -/
def FlowsAre (lookup : Lookup) (registry : Registry) : Prop :=
  ((∀ raw, ¬ Filled lookup Setting.flows.key raw) ∧ registry = .empty) ∨
    ∃ raw entries, Filled lookup Setting.flows.key raw ∧ Registry.Spells raw entries ∧
      Registry.AllAccepted entries ∧ registry.Holds entries

/-- The condition of a setting, such as `NumberIs` for the port. -/
def Met (lookup : Lookup) : Setting → Prop
  | .port => ∃ n, NumberIs lookup Setting.port.key 0 65535 3000 n
  | .expiration => ∃ n, IntervalIs lookup Setting.expiration.key 15000 n
  | .recovery => ∃ n, IntervalIs lookup Setting.recovery.key 30000 n
  | .heartbeat => ∃ n, IntervalIs lookup Setting.heartbeat.key 90000 n
  | .poll => ∃ n, IntervalIs lookup Setting.poll.key 500 n
  | .persistence => ∃ b, TruthIs lookup Setting.persistence.key false b
  | .database => TruthIs lookup Setting.persistence.key false true →
      ∃ raw, Filled lookup Setting.database.key raw
  | .flows => ∃ registry, FlowsAre lookup registry

/-- The `Config` holds just what the variables say. -/
structure Carries (lookup : Lookup) (c : Config) : Prop where
  port : NumberIs lookup Setting.port.key 0 65535 3000 c.port
  expiration : IntervalIs lookup Setting.expiration.key 15000 c.expirationMs
  recovery : IntervalIs lookup Setting.recovery.key 30000 c.recoveryMs
  heartbeat : IntervalIs lookup Setting.heartbeat.key 90000 c.heartbeatMs
  poll : IntervalIs lookup Setting.poll.key 500 c.pollMs
  persistence : TruthIs lookup Setting.persistence.key false c.persistent
  database : ∀ raw, c.databaseUrl = some raw ↔ Filled lookup Setting.database.key raw
  /-- Persistent stores have a database. -/
  named : c.persistent = true → ∃ raw, Filled lookup Setting.database.key raw
  flows : FlowsAre lookup c.registry

/-- All settings before this one in `Setting.all` are `Met`, and this one is not. -/
def FirstUnmet (lookup : Lookup) (s : Setting) : Prop :=
  ∃ before after, Setting.all = before ++ s :: after ∧ (∀ x ∈ before, Met lookup x) ∧
    ¬ Met lookup s

/-- The `ConfigError` says that the value of a variable cannot be read. -/
def Unread (lookup : Lookup) (key : String) (e : ConfigError) : Prop :=
  ∃ raw reason, lookup key = some raw ∧ e = .invalid key raw reason

/-- The `ConfigError` says that an interval is zero. -/
def Zero (lookup : Lookup) (key : String) (e : ConfigError) : Prop :=
  ∃ raw, lookup key = some raw ∧ Text.Numeral (Text.trim raw) 0 ∧
    e = .invalid key "0" "must be greater than zero"

/-- The error is one about a setting: `Unread`, `Zero`, or the one of its own. -/
def Reports (lookup : Lookup) : Setting → ConfigError → Prop
  | .port, e => Unread lookup Setting.port.key e
  | .persistence, e => Unread lookup Setting.persistence.key e
  | .database, e => e = .missingDatabaseUrl
  | .flows, e => ∃ raw cause, Filled lookup Setting.flows.key raw ∧
      Registry.ofJson raw = .error cause ∧ e = .flows cause
  | interval, e => Unread lookup interval.key e ∨ Zero lookup interval.key e

/-! ## One setting -/

/-- `natural` accepts what `NumberIs` says, and nothing else. -/
theorem natural_eq_ok_iff :
    natural lookup key limit default = .ok n ↔ NumberIs lookup key 0 limit default n := by
  unfold natural NumberIs
  cases hlookup : lookup key with
  | none => simp [eq_comm]
  | some raw =>
    cases hread : Text.natural? limit (Text.trim raw) with
    | ok m => simp [← Text.natural?_eq_ok_iff, hread]
    | error => simp [← Text.natural?_eq_ok_iff, hread]

theorem unread_of_natural (h : natural lookup key limit default = .error e) :
    Unread lookup key e := by
  unfold natural at h
  split at h
  · cases h
  · next raw hlookup =>
    split at h
    · cases h
    · next err _ => exact ⟨raw, err.message, hlookup, (Except.error.inj h).symm⟩

/-- An interval is a number that is in range and not zero. -/
theorem intervalIs_iff (hdefault : 0 < default) : IntervalIs lookup key default n ↔
    NumberIs lookup key 0 (Nat.pow 2 64 - 1) default n ∧ 0 < n := by
  constructor
  · rintro (⟨hnone, rfl⟩ | ⟨raw, hraw, hnumeral, hpos, hle⟩)
    · exact ⟨.inl ⟨hnone, rfl⟩, hdefault⟩
    · exact ⟨.inr ⟨raw, hraw, hnumeral, Nat.zero_le n, hle⟩, hpos⟩
  · rintro ⟨hdefaulted | ⟨raw, hraw, hnumeral, -, hle⟩, hpos⟩
    · exact .inl hdefaulted
    · exact .inr ⟨raw, hraw, hnumeral, hpos, hle⟩

/-- `interval` accepts what `IntervalIs` says, and nothing else. -/
theorem interval_eq_ok_iff (hdefault : 0 < default) :
    interval lookup key default = .ok n ↔ IntervalIs lookup key default n := by
  rw [intervalIs_iff hdefault, ← natural_eq_ok_iff]
  unfold interval
  split
  · next hread => simp [hread]
  · next hread =>
    rw [hread, Except.ok.injEq]
    refine ⟨nofun, ?_⟩
    rintro ⟨rfl, hpos⟩
    exact absurd hpos (Nat.lt_irrefl 0)
  · next m hne hread =>
    rw [hread, Except.ok.injEq]
    refine (and_iff_left_of_imp ?_).symm
    rintro rfl
    exact Nat.pos_of_ne_zero fun hzero => hne (hzero ▸ rfl)

theorem unread_or_zero_of_interval (hdefault : 0 < default)
    (h : interval lookup key default = .error e) : Unread lookup key e ∨ Zero lookup key e := by
  unfold interval at h
  split at h
  · next hread =>
    obtain rfl := Except.error.inj h
    exact .inl (unread_of_natural hread)
  · next hread =>
    rcases natural_eq_ok_iff.1 hread with ⟨-, hzero⟩ | ⟨raw, hraw, hnumeral, -⟩
    · exact absurd hzero (Nat.ne_of_lt hdefault)
    · exact .inr ⟨raw, hraw, hnumeral, (Except.error.inj h).symm⟩
  · cases h

/-- `truth` accepts what `TruthIs` says, and nothing else. -/
theorem truth_eq_ok_iff {default : Bool} :
    truth lookup key default = .ok b ↔ TruthIs lookup key default b := by
  unfold truth TruthIs
  cases hlookup : lookup key with
  | none => simp [eq_comm]
  | some raw =>
    simp only [reduceCtorEq, false_and, false_or, Option.some.injEq, exists_eq_left']
    split
    · next htrue => simp [htrue, eq_comm]
    · next hfalse => simp [hfalse, eq_comm]
    · next htrue hfalse =>
      refine ⟨nofun, ?_⟩
      rintro (⟨htrim, -⟩ | ⟨htrim, -⟩)
      · exact absurd htrim htrue
      · exact absurd htrim hfalse

theorem unread_of_truth {default : Bool} (h : truth lookup key default = .error e) :
    Unread lookup key e := by
  unfold truth at h
  split at h
  · cases h
  · next raw hlookup =>
    split at h
    · cases h
    · cases h
    · exact ⟨raw, _, hlookup, (Except.error.inj h).symm⟩

theorem unlessBlank_eq_some_iff : unlessBlank lookup key = some raw ↔ Filled lookup key raw := by
  simp [unlessBlank, Filled, Option.filter_eq_some_iff]

theorem unlessBlank_eq_none_iff :
    unlessBlank lookup key = none ↔ ∀ raw, ¬ Filled lookup key raw := by
  simp only [← unlessBlank_eq_some_iff, Option.eq_none_iff_forall_ne_some, ne_eq]

/-- `database` gives the address that is `Filled`, and asks for one only where events are to be
kept. -/
theorem database_eq_ok_iff : database lookup b = .ok url ↔
    (∀ raw, url = some raw ↔ Filled lookup Setting.database.key raw) ∧
      (b = true → ∃ raw, Filled lookup Setting.database.key raw) := by
  have hurl : (∀ raw, url = some raw ↔ Filled lookup Setting.database.key raw) ↔
      unlessBlank lookup "DATABASE_URL" = url := by
    simp only [← unlessBlank_eq_some_iff]
    exact ⟨fun h => (Option.ext h).symm, fun h raw => by rw [← h]; rfl⟩
  rw [hurl]
  unfold database
  split
  · next hnone =>
    refine ⟨nofun, ?_⟩
    rintro ⟨-, hneeded⟩
    obtain ⟨raw, hraw⟩ := hneeded rfl
    exact absurd hraw (unlessBlank_eq_none_iff.1 hnone raw)
  · next hgiven =>
    rw [Except.ok.injEq, and_iff_left]
    rintro rfl
    obtain ⟨raw, hraw⟩ := Option.ne_none_iff_exists'.1 fun hnone => hgiven rfl hnone
    exact ⟨raw, unlessBlank_eq_some_iff.1 hraw⟩

theorem eq_of_database_error (h : database lookup b = .error e) : e = .missingDatabaseUrl := by
  unfold database at h
  split at h
  · exact (Except.error.inj h).symm
  · cases h

/-- `flows` accepts what `FlowsAre` says, and nothing else. -/
theorem flows_eq_ok_iff : flows lookup = .ok registry ↔ FlowsAre lookup registry := by
  unfold flows
  cases hraw : unlessBlank lookup "AEON_FLOWS" with
  | none =>
    have hnone := unlessBlank_eq_none_iff.1 hraw
    constructor
    · intro h
      exact .inl ⟨hnone, (Except.ok.inj h).symm⟩
    · rintro (⟨-, rfl⟩ | ⟨raw, _, hfilled, -⟩)
      · rfl
      · exact absurd hfilled (hnone raw)
  | some raw =>
    have hfilled := unlessBlank_eq_some_iff.1 hraw
    constructor
    · intro h
      cases hread : Registry.ofJson raw with
      | error => simp [hread] at h
      | ok found =>
        simp only [hread, Except.ok.injEq] at h
        obtain ⟨entries, hentries⟩ := Registry.ofJson_eq_ok_iff.1 (h ▸ hread)
        exact .inr ⟨raw, entries, hfilled, hentries⟩
    · rintro (⟨hnone, -⟩ | ⟨other, entries, hother, hentries⟩)
      · exact absurd hfilled (hnone raw)
      · obtain rfl := Option.some.inj (hother.1.symm.trans hfilled.1)
        simp only [Registry.ofJson_eq_ok_iff.2 ⟨entries, hentries⟩]

theorem of_flows_error (h : flows lookup = .error e) : Reports lookup .flows e := by
  unfold flows at h
  split at h
  · cases h
  · next raw hraw =>
    split at h
    · cases h
    · next cause hread =>
      exact ⟨raw, cause, unlessBlank_eq_some_iff.1 hraw, hread, (Except.error.inj h).symm⟩

/-! ## All settings -/

/-- Reading goes on exactly after what was accepted. -/
theorem bind_eq_ok_iff {α β : Type} {x : Except ConfigError α} {f : α → Except ConfigError β}
    {y : β} : (x >>= f) = .ok y ↔ ∃ a, x = .ok a ∧ f a = .ok y := by
  cases x <;> simp [bind, Except.bind]

theorem bind_eq_error_iff {α β : Type} {x : Except ConfigError α} {f : α → Except ConfigError β} :
    (x >>= f) = .error e ↔ x = .error e ∨ ∃ a, x = .ok a ∧ f a = .error e := by
  cases x <;> simp [bind, Except.bind]

/-- `ofLookup` accepts the settings as a configuration exactly if that `Carries` what they say. -/
theorem ofLookup_eq_ok_iff : ofLookup lookup = .ok c ↔ Carries lookup c := by
  unfold ofLookup
  simp only [bind_eq_ok_iff, natural_eq_ok_iff, interval_eq_ok_iff (by decide : 0 < 15000),
    interval_eq_ok_iff (by decide : 0 < 30000), interval_eq_ok_iff (by decide : 0 < 90000),
    interval_eq_ok_iff (by decide : 0 < 500), truth_eq_ok_iff, database_eq_ok_iff, flows_eq_ok_iff]
  constructor
  · rintro ⟨port, hport, expiration, hexpiration, recovery, hrecovery, heartbeat, hheartbeat, poll,
      hpoll, persistent, hpersistence, url, ⟨hurl, hnamed⟩, registry, hflows, hc⟩
    obtain rfl := Except.ok.inj hc
    exact ⟨hport, hexpiration, hrecovery, hheartbeat, hpoll, hpersistence, hurl, hnamed, hflows⟩
  · rintro ⟨hport, hexpiration, hrecovery, hheartbeat, hpoll, hpersistence, hurl, hnamed, hflows⟩
    exact ⟨_, hport, _, hexpiration, _, hrecovery, _, hheartbeat, _, hpoll, _, hpersistence, _,
      ⟨hurl, hnamed⟩, _, hflows, rfl⟩

theorem TruthIs.unique {default b' : Bool} (h : TruthIs lookup key default b)
    (h' : TruthIs lookup key default b') : b = b' :=
  Except.ok.inj ((truth_eq_ok_iff.2 h).symm.trans (truth_eq_ok_iff.2 h'))

/-- With persistence read, the database is `Met` exactly if it can be read. -/
theorem met_database_iff (h : TruthIs lookup Setting.persistence.key false b) :
    Met lookup .database ↔ ∃ url, database lookup b = .ok url := by
  simp only [database_eq_ok_iff, exists_and_right]
  have hurl : ∃ url : Option String,
      ∀ raw, url = some raw ↔ Filled lookup Setting.database.key raw :=
    ⟨_, fun _ => unlessBlank_eq_some_iff⟩
  rw [and_iff_right hurl]
  refine imp_congr_left ⟨fun htrue => h.unique htrue, ?_⟩
  rintro rfl
  exact h

/-- The settings are accepted if each is `Met`. -/
theorem exists_ofLookup_iff : (∃ c, ofLookup lookup = .ok c) ↔ ∀ s, Met lookup s := by
  constructor
  · rintro ⟨c, hc⟩ s
    have h := ofLookup_eq_ok_iff.1 hc
    cases s with
    | port => exact ⟨_, h.port⟩
    | expiration => exact ⟨_, h.expiration⟩
    | recovery => exact ⟨_, h.recovery⟩
    | heartbeat => exact ⟨_, h.heartbeat⟩
    | poll => exact ⟨_, h.poll⟩
    | persistence => exact ⟨_, h.persistence⟩
    | database => exact fun htrue => h.named (h.persistence.unique htrue)
    | flows => exact ⟨_, h.flows⟩
  · intro h
    obtain ⟨port, hport⟩ := h .port
    obtain ⟨expirationMs, hexpiration⟩ := h .expiration
    obtain ⟨recoveryMs, hrecovery⟩ := h .recovery
    obtain ⟨heartbeatMs, hheartbeat⟩ := h .heartbeat
    obtain ⟨pollMs, hpoll⟩ := h .poll
    obtain ⟨persistent, hpersistence⟩ := h .persistence
    obtain ⟨databaseUrl, hdatabase⟩ := (met_database_iff hpersistence).1 (h .database)
    obtain ⟨registry, hflows⟩ := h .flows
    obtain ⟨hurl, hnamed⟩ := database_eq_ok_iff.1 hdatabase
    refine ⟨⟨port, expirationMs, recoveryMs, heartbeatMs, pollMs, persistent, databaseUrl,
      registry⟩, ofLookup_eq_ok_iff.2 ?_⟩
    exact ⟨hport, hexpiration, hrecovery, hheartbeat, hpoll, hpersistence, hurl, hnamed, hflows⟩

/-- Reading stops at a setting, and then it is `FirstUnmet`; or it is `Met`, and reading goes on. -/
theorem stops_or_goes_on {α β : Type} {x : Except ConfigError α} {f : α → Except ConfigError β}
    {before after : List Setting} (hall : Setting.all = before ++ s :: after)
    (hbefore : ∀ y ∈ before, Met lookup y) (hmet : Met lookup s ↔ ∃ a, x = .ok a)
    (hreports : x = .error e → Reports lookup s e) (h : (x >>= f) = .error e) :
    (∃ s, FirstUnmet lookup s ∧ Reports lookup s e) ∨
      ∃ a, x = .ok a ∧ f a = .error e ∧ ∀ y ∈ before ++ [s], Met lookup y := by
  rcases bind_eq_error_iff.1 h with herror | ⟨a, ha, hrest⟩
  · refine .inl ⟨s, ⟨before, after, hall, hbefore, fun hs => ?_⟩, hreports herror⟩
    obtain ⟨a, ha⟩ := hmet.1 hs
    rw [ha] at herror
    cases herror
  · refine .inr ⟨a, ha, hrest, List.forall_mem_append.2 ⟨hbefore, ?_⟩⟩
    exact List.forall_mem_singleton.2 (hmet.2 ⟨a, ha⟩)

/-- An error of `ofLookup` is one that `Reports` the setting that is `FirstUnmet`. Setting by
setting, in the order of reading. -/
theorem reports_of_ofLookup (h : ofLookup lookup = .error e) :
    ∃ s, FirstUnmet lookup s ∧ Reports lookup s e := by
  unfold ofLookup at h
  have hnumber : ∀ {key limit default}, (∃ n, NumberIs lookup key 0 limit default n) ↔
      ∃ n, natural lookup key limit default = .ok n :=
    exists_congr fun _ => natural_eq_ok_iff.symm
  have hinterval : ∀ {key default}, 0 < default → ((∃ n, IntervalIs lookup key default n) ↔
      ∃ n, interval lookup key default = .ok n) :=
    fun hdefault => exists_congr fun _ => (interval_eq_ok_iff hdefault).symm
  -- a setting is read only once all before it have been, so where reading stops is the first
  rcases stops_or_goes_on (s := .port) rfl (List.forall_mem_nil _) hnumber unread_of_natural h with
    hdone | ⟨_, -, h, hbefore⟩
  · exact hdone
  rcases stops_or_goes_on (s := .expiration) rfl hbefore (hinterval (by decide))
    (unread_or_zero_of_interval (by decide)) h with hdone | ⟨_, -, h, hbefore⟩
  · exact hdone
  rcases stops_or_goes_on (s := .recovery) rfl hbefore (hinterval (by decide))
    (unread_or_zero_of_interval (by decide)) h with hdone | ⟨_, -, h, hbefore⟩
  · exact hdone
  rcases stops_or_goes_on (s := .heartbeat) rfl hbefore (hinterval (by decide))
    (unread_or_zero_of_interval (by decide)) h with hdone | ⟨_, -, h, hbefore⟩
  · exact hdone
  rcases stops_or_goes_on (s := .poll) rfl hbefore (hinterval (by decide))
    (unread_or_zero_of_interval (by decide)) h with hdone | ⟨_, -, h, hbefore⟩
  · exact hdone
  rcases stops_or_goes_on (s := .persistence) rfl hbefore
    (exists_congr fun _ => truth_eq_ok_iff.symm) unread_of_truth h with
    hdone | ⟨persistent, hpersistent, h, hbefore⟩
  · exact hdone
  rcases stops_or_goes_on (s := .database) rfl hbefore
    (met_database_iff (truth_eq_ok_iff.1 hpersistent)) eq_of_database_error h with
    hdone | ⟨_, -, h, hbefore⟩
  · exact hdone
  rcases stops_or_goes_on (s := .flows) rfl hbefore
    (exists_congr fun _ => flows_eq_ok_iff.symm) of_flows_error h with hdone | ⟨_, -, h, -⟩
  · exact hdone
  · cases h

/-- Every error that `Reports` a setting names its variable. -/
theorem mentions_of_reports (h : Reports lookup s e) :
    ∃ before after, e.message = before ++ s.key ++ after := by
  have hinvalid : ∀ key value reason, ∃ before after,
      (ConfigError.invalid key value reason).message = before ++ key ++ after :=
    fun key value reason =>
      ⟨"invalid value '" ++ value ++ "' for ", ": " ++ reason, String.append_assoc⟩
  cases s with
  | port | persistence =>
    obtain ⟨raw, reason, -, rfl⟩ := h
    exact hinvalid _ raw reason
  | expiration | recovery | heartbeat | poll =>
    rcases h with ⟨raw, reason, -, rfl⟩ | ⟨raw, -, -, rfl⟩
    · exact hinvalid _ raw reason
    · exact hinvalid _ _ _
  | database =>
    obtain rfl := h
    exact ⟨"", " must be set when AEON_USE_PERSISTENT_STORES=true", rfl⟩
  | flows =>
    obtain ⟨_, cause, -, -, rfl⟩ := h
    have htext : "invalid AEON_FLOWS: " = "invalid " ++ Setting.flows.key ++ ": " := by decide
    have hmessage : (ConfigError.flows cause).message = "invalid AEON_FLOWS: " ++ cause.message :=
      rfl
    exact ⟨"invalid ", ": " ++ cause.message, by rw [hmessage, htext, String.append_assoc]⟩

/-- What the values of the variables come to as a `Config`. -/
structure Decided (lookup : Lookup) : Prop where
  /-- They are accepted exactly if the condition of every setting is met. -/
  accepted : (∃ c, ofLookup lookup = .ok c) ↔ ∀ s, Met lookup s
  /-- An accepted configuration holds just what they say. -/
  carries : ∀ c, ofLookup lookup = .ok c ↔ Carries lookup c
  /-- Otherwise the error is about the first setting whose condition is not met, and names it. -/
  refused : ∀ e, ofLookup lookup = .error e → ∃ s, FirstUnmet lookup s ∧ Reports lookup s e ∧
    ∃ before after, e.message = before ++ s.key ++ after
  /-- No interval is zero. -/
  positive : ∀ c, ofLookup lookup = .ok c →
    0 < c.expirationMs ∧ 0 < c.recoveryMs ∧ 0 < c.heartbeatMs ∧ 0 < c.pollMs

/-- **The variables decide the configuration, setting by setting.** Whatever they hold, they are
accepted exactly if every setting has its condition met, and then the configuration holds what they
say and defaults where they say nothing. Otherwise the first setting whose condition is not met is
reported by name. No accepted interval is zero. -/
theorem ofLookup_decided (lookup : Lookup) : Decided lookup where
  accepted := exists_ofLookup_iff
  carries _ := ofLookup_eq_ok_iff
  refused e h := by
    obtain ⟨s, hfirst, hreports⟩ := reports_of_ofLookup h
    exact ⟨s, hfirst, hreports, mentions_of_reports hreports⟩
  positive c h := by
    have hc := ofLookup_eq_ok_iff.1 h
    exact ⟨((intervalIs_iff (by decide)).1 hc.expiration).2,
      ((intervalIs_iff (by decide)).1 hc.recovery).2,
      ((intervalIs_iff (by decide)).1 hc.heartbeat).2, ((intervalIs_iff (by decide)).1 hc.poll).2⟩

example : ofLookup (fun key => if key = Setting.poll.key then some " 000 " else none) =
    .error (.invalid Setting.poll.key "0" "must be greater than zero") := by rfl

end Config

end EventRelay
