import Mathlib.Data.List.Infix
import Mathlib.Data.List.Nodup
import Mathlib.Logic.Function.Basic

/-! # Event-sourced entities

A store keeps, for every entity, its events and an index row of chosen columns. An entity in memory
carries the events it was loaded with and those pushed since. `EventRepo` is a repository that
behaves as such libraries document it: creating files the first events under a fresh id, updating
does nothing without pushed events and otherwise appends them, refreshing the index row, if nobody
appended any meanwhile; finding loads the events stored. Operations may always fail. -/

namespace Foundations

variable {ι ρ ε κ α : Type*}

/-- The events of an entity in memory. -/
structure EntityEvents (ε : Type*) where
  persisted : List ε
  pushed : List ε
  deriving DecidableEq

/-- All of them, oldest first. -/
def EntityEvents.all (events : EntityEvents ε) : List ε := events.persisted ++ events.pushed

def EntityEvents.push (events : EntityEvents ε) (event : ε) : EntityEvents ε :=
  { events with pushed := events.pushed ++ [event] }

@[simp] theorem EntityEvents.push_persisted (events : EntityEvents ε) (event : ε) :
    (events.push event).persisted = events.persisted := rfl

theorem EntityEvents.all_push (events : EntityEvents ε) (event : ε) :
    (events.push event).all = events.all ++ [event] := by
  rw [all, push, all, List.append_assoc]

/-- The pushed events have been stored. -/
def EntityEvents.markPersisted (events : EntityEvents ε) : EntityEvents ε := ⟨events.all, []⟩

@[simp] theorem EntityEvents.all_markPersisted (events : EntityEvents ε) :
    events.markPersisted.all = events.all := by
  rw [markPersisted, all, List.append_nil]

/-- The table of events and the index table of one kind of entity. -/
structure EventStore (ι ρ ε : Type*) where
  rows : ι → Option ρ
  events : ι → List ε

/-- What a repository is told about its entities. -/
structure EntitySchema (ι ρ ε κ α : Type*) where
  id : α → ι
  events : α → EntityEvents ε
  withEvents : α → EntityEvents ε → α
  hydrate : EntityEvents ε → Option α
  newId : κ → ι
  initial : κ → List ε
  createRow : κ → ρ
  updateRow : α → ρ → ρ

namespace EventStore

def empty : EventStore ι ρ ε := ⟨fun _ => none, fun _ => []⟩

variable [DecidableEq ι]

/-- Set the row and the events of one entity. -/
def put (store : EventStore ι ρ ε) (id : ι) (row : ρ) (events : List ε) : EventStore ι ρ ε :=
  ⟨Function.update store.rows id (some row), Function.update store.events id events⟩

/-- Change the row of one entity, if it has one. -/
def modifyRow (store : EventStore ι ρ ε) (id : ι) (f : ρ → ρ) : EventStore ι ρ ε :=
  { store with rows := Function.update store.rows id ((store.rows id).map f) }

/-- Set the rows and first events of many new entities. -/
def insertAll (store : EventStore ι ρ ε) (schema : EntitySchema ι ρ ε κ α) (news : List κ) :
    EventStore ι ρ ε :=
  { rows := fun id =>
      match news.find? (fun new => schema.newId new = id) with
      | some new => some (schema.createRow new)
      | none => store.rows id
    events := fun id =>
      match news.find? (fun new => schema.newId new = id) with
      | some new => schema.initial new
      | none => store.events id }

variable {store : EventStore ι ρ ε} {id id' : ι} {row : ρ} {events : List ε}

@[simp] theorem put_rows_self : (store.put id row events).rows id = some row :=
  Function.update_self ..

@[simp] theorem put_events_self : (store.put id row events).events id = events :=
  Function.update_self ..

theorem put_rows_ne (h : id' ≠ id) : (store.put id row events).rows id' = store.rows id' :=
  Function.update_of_ne h ..

theorem put_events_ne (h : id' ≠ id) : (store.put id row events).events id' = store.events id' :=
  Function.update_of_ne h ..

@[simp] theorem modifyRow_events {f : ρ → ρ} :
    (store.modifyRow id f).events = store.events := rfl

@[simp] theorem modifyRow_rows_self {f : ρ → ρ} :
    (store.modifyRow id f).rows id = (store.rows id).map f :=
  Function.update_self ..

theorem modifyRow_rows_ne {f : ρ → ρ} (h : id' ≠ id) :
    (store.modifyRow id f).rows id' = store.rows id' :=
  Function.update_of_ne h ..

end EventStore

/-- The second store is the first with new entities added, each under an id of its own. -/
structure Created (schema : EntitySchema ι ρ ε κ α) (store : EventStore ι ρ ε) (news : List κ)
    (store' : EventStore ι ρ ε) : Prop where
  nodup : (news.map schema.newId).Nodup
  fresh : ∀ new ∈ news,
    store.rows (schema.newId new) = none ∧ store.events (schema.newId new) = []
  row : ∀ new ∈ news, store'.rows (schema.newId new) = some (schema.createRow new)
  events : ∀ new ∈ news, store'.events (schema.newId new) = schema.initial new
  kept : ∀ id, id ∉ news.map schema.newId →
    store'.rows id = store.rows id ∧ store'.events id = store.events id

theorem EventStore.insertAll_created [DecidableEq ι] {store : EventStore ι ρ ε}
    {schema : EntitySchema ι ρ ε κ α} {news : List κ} (hnodup : (news.map schema.newId).Nodup)
    (hfresh : ∀ new ∈ news,
      store.rows (schema.newId new) = none ∧ store.events (schema.newId new) = []) :
    Created schema store news (store.insertAll schema news) := by
  have hfind : ∀ new ∈ news,
      news.find? (fun other => schema.newId other = schema.newId new) = some new := by
    intro new hnew
    cases h : news.find? (fun other => schema.newId other = schema.newId new) with
    | none => simpa using List.find?_eq_none.mp h new hnew
    | some other =>
      have hother : schema.newId other = schema.newId new := by simpa using List.find?_some h
      rw [List.inj_on_of_nodup_map hnodup (List.mem_of_find?_eq_some h) hnew hother]
  refine ⟨hnodup, hfresh, fun new hnew => ?_, fun new hnew => ?_, fun id hid => ?_⟩
  · simp only [EventStore.insertAll, hfind new hnew]
  · simp only [EventStore.insertAll, hfind new hnew]
  · have hnone : news.find? (fun other => schema.newId other = id) = none := by
      rw [List.find?_eq_none]
      intro new hnew hsame
      exact hid (List.mem_map.mpr ⟨new, hnew, by simpa using hsame⟩)
    constructor
    · simp only [EventStore.insertAll, hnone]
    · simp only [EventStore.insertAll, hnone]

/-- A repository that behaves as documented wherever it succeeds. -/
structure EventRepo [DecidableEq ι] (schema : EntitySchema ι ρ ε κ α) where
  create : EventStore ι ρ ε → κ → Option (EventStore ι ρ ε × α)
  createAll : EventStore ι ρ ε → List κ → Option (EventStore ι ρ ε × List α)
  update : EventStore ι ρ ε → α → Option (EventStore ι ρ ε × α)
  find : EventStore ι ρ ε → ι → Option α
  create_spec : ∀ {store new store' entity}, create store new = some (store', entity) →
    Created schema store [new] store' ∧ schema.hydrate ⟨schema.initial new, []⟩ = some entity
  createAll_spec : ∀ {store news store' entities}, createAll store news = some (store', entities) →
    Created schema store news store'
      ∧ news.mapM (fun new => schema.hydrate ⟨schema.initial new, []⟩) = some entities
  update_spec : ∀ {store entity store' entity'}, update store entity = some (store', entity') →
    (schema.events entity).pushed = [] ∧ store' = store ∧ entity' = entity
      ∨ (schema.events entity).pushed ≠ []
        ∧ (store.events (schema.id entity)).length ≤ (schema.events entity).persisted.length
        ∧ ∃ row, store.rows (schema.id entity) = some row
          ∧ store' = store.put (schema.id entity) (schema.updateRow entity row)
            (store.events (schema.id entity) ++ (schema.events entity).pushed)
          ∧ entity' = schema.withEvents entity (schema.events entity).markPersisted
  find_spec : ∀ {store id entity}, find store id = some entity →
    schema.hydrate ⟨store.events id, []⟩ = some entity

/-- Create many entities, if their ids are distinct and unused. -/
def EntitySchema.createAll [DecidableEq ι] (schema : EntitySchema ι ρ ε κ α)
    (store : EventStore ι ρ ε) (news : List κ) : Option (EventStore ι ρ ε × List α) :=
  if (news.map schema.newId).Nodup ∧ ∀ new ∈ news,
      (store.rows (schema.newId new)).isNone ∧ (store.events (schema.newId new)).isEmpty then
    (news.mapM (fun new => schema.hydrate ⟨schema.initial new, []⟩)).map
      (fun entities => (store.insertAll schema news, entities))
  else none

theorem EntitySchema.createAll_spec [DecidableEq ι] {schema : EntitySchema ι ρ ε κ α}
    {store store' : EventStore ι ρ ε} {news : List κ} {entities : List α}
    (h : schema.createAll store news = some (store', entities)) :
    Created schema store news store'
      ∧ news.mapM (fun new => schema.hydrate ⟨schema.initial new, []⟩) = some entities := by
  unfold createAll at h
  split at h
  · rename_i hnew
    obtain ⟨entities', hentities, heq⟩ := Option.map_eq_some_iff.mp h
    cases heq
    refine ⟨EventStore.insertAll_created hnew.1 (fun new hmem => ?_), hentities⟩
    exact ⟨Option.isNone_iff_eq_none.mp (hnew.2 new hmem).1,
      List.isEmpty_iff.mp (hnew.2 new hmem).2⟩
  · cases h

/-- The repository that fails only where it must. -/
def EventRepo.reference [DecidableEq ι] (schema : EntitySchema ι ρ ε κ α) : EventRepo schema where
  create store new :=
    (schema.hydrate ⟨schema.initial new, []⟩).bind (fun entity =>
      (schema.createAll store [new]).map (fun created => (created.1, entity)))
  createAll := schema.createAll
  update store entity :=
    if (schema.events entity).pushed.isEmpty then some (store, entity)
    else if (store.events (schema.id entity)).length ≤ (schema.events entity).persisted.length then
      (store.rows (schema.id entity)).map (fun row =>
        (store.put (schema.id entity) (schema.updateRow entity row)
            (store.events (schema.id entity) ++ (schema.events entity).pushed),
          schema.withEvents entity (schema.events entity).markPersisted))
    else none
  find store id := schema.hydrate ⟨store.events id, []⟩
  create_spec := by
    intro store new store' entity h
    obtain ⟨entity', hentity, h⟩ := Option.bind_eq_some_iff.mp h
    obtain ⟨created, hcreated, heq⟩ := Option.map_eq_some_iff.mp h
    cases heq
    exact ⟨(EntitySchema.createAll_spec hcreated).1, hentity⟩
  createAll_spec := EntitySchema.createAll_spec
  update_spec := by
    intro store entity store' entity' h
    split at h
    · rename_i hempty
      cases h
      exact Or.inl ⟨List.isEmpty_iff.mp hempty, rfl, rfl⟩
    · rename_i hpushed
      split at h
      · rename_i hlength
        obtain ⟨row, hrow, heq⟩ := Option.map_eq_some_iff.mp h
        cases heq
        exact Or.inr ⟨mt List.isEmpty_iff.mpr hpushed, hlength, row, hrow, rfl, rfl⟩
      · cases h
  find_spec := id

end Foundations
