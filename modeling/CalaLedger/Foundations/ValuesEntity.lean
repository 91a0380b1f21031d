import CalaLedger.Foundations.EventStore

/-! # Entities whose events record all their values

Every event carries the values of the entity after it, so an entity is hydrated from its last event.
`Follows` says that an entity in memory stems from what is stored: its persisted events are the
oldest ones stored under its id. It survives whatever happens to the store, and it is what makes an
update of the store end in the values held in memory. -/

namespace Foundations

variable {ι ρ κ V φ β : Type*}

/-- An event with the values after it; an update names the fields it changed. -/
inductive ValuesEvent (V : Type*)
  | initialized (values : V)
  | updated (values : V) (fields : List String)
  deriving DecidableEq

def ValuesEvent.values : ValuesEvent V → V
  | .initialized values => values
  | .updated values _ => values

/-- The values after the last of the events. -/
def latestValues (events : List (ValuesEvent V)) : Option V :=
  events.getLast?.map ValuesEvent.values

theorem latestValues_append {events : List (ValuesEvent V)} {event : ValuesEvent V} :
    latestValues (events ++ [event]) = some event.values := by
  rw [latestValues, List.getLast?_concat, Option.map_some]

structure ValuesEntity (ι V : Type*) where
  id : ι
  values : V
  events : EntityEvents (ValuesEvent V)
  deriving DecidableEq

/-- Whether a call changed anything. -/
inductive Idempotent
  | executed
  | alreadyApplied
  deriving DecidableEq, Repr

def Idempotent.didExecute : Idempotent → Bool
  | .executed => true
  | .alreadyApplied => false

/-- The id and the values of an entity while it is built from its events. -/
def ValuesEntity.build (idOf : V → ι) (builder : Option ι × Option V) :
    ValuesEvent V → Option ι × Option V
  | .initialized values => (some (idOf values), some values)
  | .updated values _ => (builder.1, some values)

/-- Rebuild an entity from its events. -/
def ValuesEntity.hydrate (idOf : V → ι) (events : EntityEvents (ValuesEvent V)) :
    Option (ValuesEntity ι V) :=
  let builder := events.all.foldl (ValuesEntity.build idOf) (none, none)
  builder.1.bind (fun id => builder.2.map (fun values => ⟨id, values, events⟩))

theorem ValuesEntity.build_snd {idOf : V → ι} {events : List (ValuesEvent V)} :
    (events.foldl (build idOf) (none, none)).2 = latestValues events := by
  induction events using List.reverseRecOn with
  | nil => rfl
  | append_singleton events event ih =>
    rw [List.foldl_append, latestValues_append]
    cases event <;> rfl

theorem ValuesEntity.build_fst {idOf : V → ι} {events : List (ValuesEvent V)} {id id' : ι}
    (hown : ∀ event ∈ events, idOf event.values = id)
    (h : (events.foldl (build idOf) (none, none)).1 = some id') : id' = id := by
  induction events using List.reverseRecOn with
  | nil => cases h
  | append_singleton events event ih =>
    rw [List.foldl_append] at h
    cases event with
    | initialized values =>
      have hid : idOf values = id := hown (.initialized values) (by simp)
      exact (Option.some.inj h).symm.trans hid
    | updated values fields =>
      exact ih (fun event hevent => hown event (List.mem_append_left _ hevent)) h

theorem ValuesEntity.hydrate_spec {idOf : V → ι} {events : EntityEvents (ValuesEvent V)} {id : ι}
    {entity : ValuesEntity ι V} (hown : ∀ event ∈ events.all, idOf event.values = id)
    (h : hydrate idOf events = some entity) :
    entity.id = id ∧ entity.events = events ∧ latestValues events.all = some entity.values := by
  obtain ⟨id', hid, h⟩ := Option.bind_eq_some_iff.mp h
  obtain ⟨values, hvalues, rfl⟩ := Option.map_eq_some_iff.mp h
  exact ⟨build_fst hown hid, rfl, build_snd.symm.trans hvalues⟩

/-- Take over a requested value that differs from the present one, and note the field. -/
def changeField [DecidableEq β] (field : String) (requested : Option β) (get : V → β)
    (set : V → β → V) (state : V × List String) : V × List String :=
  match requested with
  | some value =>
    if value ≠ get state.1 then (set state.1 value, state.2 ++ [field]) else state
  | none => state

/-- Make the changes, and record an update if any field changed. -/
def ValuesEntity.change (entity : ValuesEntity ι V)
    (changes : List (V × List String → V × List String)) : ValuesEntity ι V × Idempotent :=
  let (values, updatedFields) :=
    changes.foldl (fun state change => change state) (entity.values, [])
  if updatedFields.isEmpty then ({ entity with values := values }, .alreadyApplied)
  else
    ({ entity with values := values, events := entity.events.push (.updated values updatedFields) },
      .executed)

/-- A change that leaves a part of the values alone, and all of them unless it notes a field. -/
structure Mild (keep : V → β) (change : V × List String → V × List String) : Prop where
  keeps : ∀ state, keep (change state).1 = keep state.1
  notes : ∀ state, change state = state ∨ (change state).2 ≠ []

theorem changeField_mild [DecidableEq β] {γ : Type*} {field : String} {requested : Option β}
    {get : V → β} {set : V → β → V} {keep : V → γ}
    (hset : ∀ values value, keep (set values value) = keep values) :
    Mild keep (changeField field requested get set) := by
  constructor
  · intro state
    unfold changeField
    split
    · split
      · exact hset ..
      · rfl
    · rfl
  · intro state
    unfold changeField
    split
    · split
      · exact Or.inr (by simp)
      · exact Or.inl rfl
    · exact Or.inl rfl

theorem Mild.foldl {keep : V → β} {changes : List (V × List String → V × List String)}
    (hchanges : ∀ change ∈ changes, Mild keep change) (state : V × List String) :
    keep (changes.foldl (fun state change => change state) state).1 = keep state.1
      ∧ (changes.foldl (fun state change => change state) state = state
        ∨ (changes.foldl (fun state change => change state) state).2 ≠ []) := by
  induction changes generalizing state with
  | nil => exact ⟨rfl, Or.inl rfl⟩
  | cons change changes ih =>
    have hchange := hchanges change List.mem_cons_self
    obtain ⟨hkeep, hnotes⟩ := ih (fun c hc => hchanges c (List.mem_cons_of_mem _ hc)) (change state)
    refine ⟨hkeep.trans (hchange.keeps state), ?_⟩
    rcases hnotes with hsame | hnoted
    · rw [List.foldl_cons, hsame]
      exact hchange.notes state
    · exact Or.inr hnoted

/-- What a list of mild changes does to an entity: nothing, or an update pushed with the new
values. -/
theorem ValuesEntity.change_cases {entity : ValuesEntity ι V} {keep : V → β}
    {changes : List (V × List String → V × List String)}
    (hchanges : ∀ change ∈ changes, Mild keep change) :
    entity.change changes = (entity, .alreadyApplied)
      ∨ ∃ values fields, keep values = keep entity.values ∧ entity.change changes =
        (⟨entity.id, values, entity.events.push (.updated values fields)⟩, .executed) := by
  obtain ⟨hkeep, hnotes⟩ := Mild.foldl hchanges (entity.values, [])
  by_cases hempty :
      (changes.foldl (fun state change => change state) (entity.values, [])).2 = []
  · have hsame := hnotes.resolve_right (not_not_intro hempty)
    left
    simp only [ValuesEntity.change, hsame, List.isEmpty_nil, if_true]
  · right
    refine ⟨(changes.foldl (fun state change => change state) (entity.values, [])).1,
      (changes.foldl (fun state change => change state) (entity.values, [])).2, hkeep, ?_⟩
    simp only [ValuesEntity.change, List.isEmpty_iff, hempty, if_false]

/-- What a repository is told about such entities. Some columns are written at creation only; they
hold a part of the values that no update may touch. -/
structure ValuesSchema (ι ρ κ V φ : Type*) where
  idOf : V → ι
  newId : κ → ι
  intoValues : κ → V
  createRow : κ → ρ
  updateRow : ValuesEntity ι V → ρ → ρ
  fixed : V → φ
  fixedColumns : ρ → φ
  idOf_intoValues : ∀ new, idOf (intoValues new) = newId new
  fixedColumns_createRow : ∀ new, fixedColumns (createRow new) = fixed (intoValues new)
  fixedColumns_updateRow : ∀ entity row, fixedColumns (updateRow entity row) = fixedColumns row

@[simps] def ValuesSchema.entitySchema (schema : ValuesSchema ι ρ κ V φ) :
    EntitySchema ι ρ (ValuesEvent V) κ (ValuesEntity ι V) where
  id entity := entity.id
  events entity := entity.events
  withEvents entity events := { entity with events := events }
  hydrate := ValuesEntity.hydrate schema.idOf
  newId := schema.newId
  initial new := [.initialized (schema.intoValues new)]
  createRow := schema.createRow
  updateRow := schema.updateRow

/-- The values of an entity after its last stored event. -/
def EventStore.latest (store : EventStore ι ρ (ValuesEvent V)) (id : ι) : Option V :=
  latestValues (store.events id)

variable {schema : ValuesSchema ι ρ κ V φ} {store store' : EventStore ι ρ (ValuesEvent V)}
  {entity entity' : ValuesEntity ι V} {id : ι} {values : V}

/-- Values of an entity that has a row, and agree with it in what never changes. -/
def ValuesSchema.Owns (schema : ValuesSchema ι ρ κ V φ) (store : EventStore ι ρ (ValuesEvent V))
    (id : ι) (values : V) : Prop :=
  schema.idOf values = id
    ∧ (store.rows id).map schema.fixedColumns = some (schema.fixed values)

/-- Every stored event is about the entity it is stored for, and every row has events. -/
structure ValuesSchema.Sound (schema : ValuesSchema ι ρ κ V φ)
    (store : EventStore ι ρ (ValuesEvent V)) : Prop where
  own : ∀ id, ∀ event ∈ store.events id, schema.Owns store id event.values
  stored : ∀ id, store.rows id ≠ none → store.events id ≠ []

/-- An entity in memory stems from what is stored. -/
structure ValuesSchema.Follows (schema : ValuesSchema ι ρ κ V φ)
    (store : EventStore ι ρ (ValuesEvent V)) (entity : ValuesEntity ι V) : Prop where
  persisted : entity.events.persisted <+: store.events entity.id
  stored : entity.events.persisted ≠ []
  own : ∀ event ∈ entity.events.all, schema.Owns store entity.id event.values
  values : latestValues entity.events.all = some entity.values

/-- Events are only appended, and what never changes does not. -/
structure ValuesSchema.Grows (schema : ValuesSchema ι ρ κ V φ)
    (store store' : EventStore ι ρ (ValuesEvent V)) : Prop where
  events : ∀ id, store.events id <+: store'.events id
  fixed : ∀ id column, (store.rows id).map schema.fixedColumns = some column →
    (store'.rows id).map schema.fixedColumns = some column

namespace ValuesSchema

theorem Grows.refl : schema.Grows store store :=
  ⟨fun _ => List.prefix_rfl, fun _ _ h => h⟩

theorem sound_empty : schema.Sound EventStore.empty :=
  ⟨fun _ _ h => absurd h List.not_mem_nil, fun _ h => absurd rfl h⟩

theorem Owns.mono (h : schema.Owns store id values) (hgrow : schema.Grows store store') :
    schema.Owns store' id values :=
  ⟨h.1, hgrow.fixed _ _ h.2⟩

/-- An entity keeps following a store that grows. -/
theorem Follows.mono (h : schema.Follows store entity) (hgrow : schema.Grows store store') :
    schema.Follows store' entity :=
  { h with
    persisted := h.persisted.trans (hgrow.events _)
    own := fun event hevent => (h.own event hevent).mono hgrow }

theorem Follows.owns_values (h : schema.Follows store entity) :
    schema.Owns store entity.id entity.values := by
  obtain ⟨event, hlast, hvalues⟩ := Option.map_eq_some_iff.mp h.values
  rw [← hvalues]
  exact h.own event (List.mem_of_getLast? hlast)

theorem Follows.events_ne_nil (h : schema.Follows store entity) : store.events entity.id ≠ [] := by
  intro hnil
  have hpersisted := h.persisted
  rw [hnil, List.prefix_nil] at hpersisted
  exact h.stored hpersisted

/-- An entity in memory may be changed at will, what never changes apart. -/
theorem Follows.change {changes : List (V × List String → V × List String)}
    (h : schema.Follows store entity)
    (hchanges : ∀ change ∈ changes, Mild (fun values => (schema.idOf values, schema.fixed values))
      change) :
    schema.Follows store (entity.change changes).1 ∧ (entity.change changes).1.id = entity.id := by
  rcases ValuesEntity.change_cases hchanges with hsame | ⟨values, fields, hkeep, hchanged⟩
  · rw [hsame]
    exact ⟨h, rfl⟩
  · obtain ⟨hid, hfixed⟩ := Prod.mk.inj hkeep
    rw [hchanged]
    refine ⟨⟨h.persisted, h.stored, ?_, ?_⟩, rfl⟩
    · intro event hevent
      rw [EntityEvents.all_push, List.mem_append, List.mem_singleton] at hevent
      rcases hevent with hold | rfl
      · exact h.own event hold
      · exact ⟨hid.trans h.owns_values.1, h.owns_values.2.trans (congrArg some hfixed.symm)⟩
    · rw [EntityEvents.all_push, latestValues_append]
      rfl

/-- A loaded entity follows the store and holds its latest values. -/
theorem Sound.hydrated (hsound : schema.Sound store)
    (h : ValuesEntity.hydrate schema.idOf ⟨store.events id, []⟩ = some entity) :
    schema.Follows store entity ∧ entity.id = id ∧ entity.events = ⟨store.events id, []⟩ := by
  have hown : ∀ event ∈ (⟨store.events id, []⟩ : EntityEvents (ValuesEvent V)).all,
      schema.Owns store id event.values := by
    intro event hevent
    rw [EntityEvents.all, List.append_nil] at hevent
    exact hsound.own id event hevent
  obtain ⟨rfl, hevents, hvalues⟩ :=
    ValuesEntity.hydrate_spec (fun event hevent => (hown event hevent).1) h
  rw [← hevents] at hown hvalues
  refine ⟨⟨?_, ?_, hown, hvalues⟩, rfl, hevents⟩
  · rw [hevents]
  · intro hnil
    rw [hevents] at hvalues hnil
    rw [show store.events entity.id = [] from hnil] at hvalues
    cases hvalues

/-- What creating entities does to a sound store. -/
theorem Sound.created {news : List κ} (hsound : schema.Sound store)
    (h : Created schema.entitySchema store news store') :
    schema.Sound store' ∧ schema.Grows store store' := by
  have hgrow : schema.Grows store store' := by
    constructor
    · intro id
      by_cases hid : id ∈ news.map schema.newId
      · obtain ⟨new, hnew, rfl⟩ := List.mem_map.mp hid
        have hfresh : store.events (schema.newId new) = [] := (h.fresh new hnew).2
        rw [hfresh]
        exact List.nil_prefix
      · rw [(h.kept id hid).2]
    · intro id column hcolumn
      by_cases hid : id ∈ news.map schema.newId
      · obtain ⟨new, hnew, rfl⟩ := List.mem_map.mp hid
        have hfresh : store.rows (schema.newId new) = none := (h.fresh new hnew).1
        rw [hfresh] at hcolumn
        cases hcolumn
      · rw [(h.kept id hid).1]
        exact hcolumn
  refine ⟨⟨fun id event hevent => ?_, fun id hrow => ?_⟩, hgrow⟩
  · by_cases hid : id ∈ news.map schema.newId
    · obtain ⟨new, hnew, rfl⟩ := List.mem_map.mp hid
      have hevents : store'.events (schema.newId new) = [.initialized (schema.intoValues new)] :=
        h.events new hnew
      have hrow : store'.rows (schema.newId new) = some (schema.createRow new) := h.row new hnew
      rw [hevents, List.mem_singleton] at hevent
      rw [hevent]
      refine ⟨schema.idOf_intoValues new, ?_⟩
      rw [hrow, Option.map_some, schema.fixedColumns_createRow]
      rfl
    · rw [(h.kept id hid).2] at hevent
      exact (hsound.own id event hevent).mono hgrow
  · by_cases hid : id ∈ news.map schema.newId
    · obtain ⟨new, hnew, rfl⟩ := List.mem_map.mp hid
      have hevents : store'.events (schema.newId new) = [.initialized (schema.intoValues new)] :=
        h.events new hnew
      rw [hevents]
      exact List.cons_ne_nil _ _
    · rw [(h.kept id hid).1] at hrow
      rw [(h.kept id hid).2]
      exact hsound.stored id hrow

/-- The latest values of entities just created. -/
theorem created_latest {news : List κ} (h : Created schema.entitySchema store news store')
    {new : κ} (hnew : new ∈ news) :
    store'.latest (schema.newId new) = some (schema.intoValues new) := by
  have hevents : store'.events (schema.newId new) = [.initialized (schema.intoValues new)] :=
    h.events new hnew
  rw [EventStore.latest, hevents]
  rfl

/-- The entities returned by a creation follow the store. -/
theorem Sound.created_follows {news : List κ} {new : κ} (hsound : schema.Sound store)
    (h : Created schema.entitySchema store news store') (hnew : new ∈ news)
    (hentity : ValuesEntity.hydrate schema.idOf
      ⟨[.initialized (schema.intoValues new)], []⟩ = some entity) :
    schema.Follows store' entity := by
  have hevents : store'.events (schema.newId new) = [.initialized (schema.intoValues new)] :=
    h.events new hnew
  rw [← hevents] at hentity
  exact ((hsound.created h).1.hydrated hentity).1

variable [DecidableEq ι]

/-- A change of a row that leaves alone what never changes. -/
theorem Sound.modifyRow {f : ρ → ρ} (hsound : schema.Sound store)
    (hf : ∀ row, schema.fixedColumns (f row) = schema.fixedColumns row) :
    schema.Sound (store.modifyRow id f) ∧ schema.Grows store (store.modifyRow id f) := by
  have hgrow : schema.Grows store (store.modifyRow id f) := by
    refine ⟨fun _ => List.prefix_rfl, fun id' column hcolumn => ?_⟩
    by_cases hid : id' = id
    · subst hid
      rw [EventStore.modifyRow_rows_self, Option.map_map, show schema.fixedColumns ∘ f
        = schema.fixedColumns from funext hf]
      exact hcolumn
    · rw [EventStore.modifyRow_rows_ne hid]
      exact hcolumn
  refine ⟨⟨fun id' event hevent => (hsound.own id' event hevent).mono hgrow, ?_⟩, hgrow⟩
  intro id' hrow
  by_cases hid : id' = id
  · subst hid
    refine hsound.stored id' (fun hnone => hrow ?_)
    rw [EventStore.modifyRow_rows_self, hnone]
    rfl
  · rw [EventStore.modifyRow_rows_ne hid] at hrow
    exact hsound.stored id' hrow

/-- What updating an entity that follows a sound store does: nothing if nothing was pushed, else the
row is refreshed and the stored events end in the values in memory. -/
theorem Sound.updated {repo : EventRepo schema.entitySchema} (hsound : schema.Sound store)
    (hfollows : schema.Follows store entity)
    (h : repo.update store entity = some (store', entity')) :
    (schema.Sound store' ∧ schema.Grows store store' ∧ schema.Follows store' entity'
      ∧ entity'.id = entity.id ∧ entity'.values = entity.values)
      ∧ (entity.events.pushed = [] ∧ store' = store
        ∨ entity.events.pushed ≠ [] ∧ ∃ row, store.rows entity.id = some row
          ∧ store' = store.put entity.id (schema.updateRow entity row) entity.events.all) := by
  rcases repo.update_spec h with
    ⟨hpushed, rfl, rfl⟩ | ⟨hpushed, hlength, row, hrow, hstore, hentity⟩
  · exact ⟨⟨hsound, Grows.refl, hfollows, rfl, rfl⟩, Or.inl ⟨hpushed, rfl⟩⟩
  · have hpersisted : store.events entity.id = entity.events.persisted :=
      (hfollows.persisted.eq_of_length_le hlength).symm
    replace hrow : store.rows entity.id = some row := hrow
    replace hstore : store' = store.put entity.id (schema.updateRow entity row)
        entity.events.all := by
      rw [hstore, EntityEvents.all, ← hpersisted]
      rfl
    subst hstore hentity
    have hgrow : schema.Grows store
        (store.put entity.id (schema.updateRow entity row) entity.events.all) := by
      constructor
      · intro id
        by_cases hid : id = entity.id
        · rw [hid, EventStore.put_events_self, hpersisted]
          exact List.prefix_append _ _
        · rw [EventStore.put_events_ne hid]
      · intro id column hcolumn
        by_cases hid : id = entity.id
        · rw [hid, hrow] at hcolumn
          rw [hid, EventStore.put_rows_self, Option.map_some, schema.fixedColumns_updateRow]
          exact hcolumn
        · rw [EventStore.put_rows_ne hid]
          exact hcolumn
    refine ⟨⟨⟨?_, ?_⟩, hgrow, ⟨?_, ?_, ?_, ?_⟩, rfl, rfl⟩, Or.inr ⟨hpushed, row, hrow, rfl⟩⟩
    · intro id event hevent
      by_cases hid : id = entity.id
      · rw [hid, EventStore.put_events_self] at hevent
        rw [hid]
        exact (hfollows.own event hevent).mono hgrow
      · rw [EventStore.put_events_ne hid] at hevent
        exact (hsound.own id event hevent).mono hgrow
    · intro id hstored
      by_cases hid : id = entity.id
      · rw [hid, EventStore.put_events_self]
        exact List.append_ne_nil_of_left_ne_nil hfollows.stored _
      · rw [EventStore.put_rows_ne hid] at hstored
        rw [EventStore.put_events_ne hid]
        exact hsound.stored id hstored
    · show entity.events.all <+: _
      rw [entitySchema_withEvents_id, EventStore.put_events_self]
    · exact List.append_ne_nil_of_left_ne_nil hfollows.stored _
    · intro event hevent
      rw [entitySchema_withEvents_events, EntityEvents.all_markPersisted] at hevent
      exact (hfollows.own event hevent).mono hgrow
    · rw [entitySchema_withEvents_events, EntityEvents.all_markPersisted]
      exact hfollows.values

end ValuesSchema

end Foundations
