import CalaLedger.Posting.Batch

/-! # The template cache

A process keeps the template bodies it has posted with and prepares from them; the fence of a
posting reads the current `(id, version)` of its codes, and what differs is fetched again. Lookups
are made in the operation of the posting, so they see the templates that operation has created, and
what they find is cached for the whole process.

The runs here are of statements: operations of several processes create templates, post with them,
commit and roll back in any order. A posting of an operation that commits has used the stored bodies
as long as every creation is `Fresh` (`Run.transparent`): no process holds another body under its
code and id. A process that does hold one uses it (`exists_misuse`). -/

namespace CalaLedger

/-- A template body resolved at a known version. -/
structure ResolvedTemplate where
  id : TxTemplateId
  version : ℕ
  values : TxTemplateValues

/-- The version of a template that was created and never updated: its first event. -/
def FIRST_VERSION : ℕ := 1

namespace TemplateCache

/-- `PostingRepo::resolve_templates_in_op`, then `fetch_and_install` up to the install. -/
def fetch (view : String → Option ResolvedTemplate) (codes : List String) :
    Except TxTemplateError (HashMap String ResolvedTemplate) :=
  if ∀ code ∈ codes, (view code).isSome then
    .ok (Foundations.storeFound codes view ∅)
  else
    .error .notFound

/-- `TemplateCache::install`. -/
def install (resolved snapshot : HashMap String ResolvedTemplate) :
    HashMap String ResolvedTemplate :=
  resolved ∪ snapshot

/-- What `resolve_in_op` takes from the snapshot. -/
def hits (snapshot : HashMap String ResolvedTemplate) (codes : List String) :
    HashMap String ResolvedTemplate :=
  Foundations.storeFound codes snapshot.lookup ∅

/-- What `resolve_in_op` has to fetch. -/
def missing (snapshot : HashMap String ResolvedTemplate) (codes : List String) : List String :=
  codes.filter (fun code => (snapshot.lookup code).isNone)

/-- The fence's probe: the id and latest version of a code. -/
def probe (view : String → Option ResolvedTemplate) (code : String) :
    Option (TxTemplateId × ℕ) :=
  (view code).map (fun template => (template.id, template.version))

/-- `TemplateCache::assert_up_to_date`: the codes of the batch whose body is not current. -/
def stale (codes : List String) (used : HashMap String ResolvedTemplate)
    (observed : String → Option (TxTemplateId × ℕ)) : List String :=
  codes.filter (fun code => (used.lookup code).any (fun resolved =>
    observed code ≠ some (resolved.id, resolved.version)))

theorem lookup_of_fetch {view : String → Option ResolvedTemplate} {codes : List String}
    {resolved : HashMap String ResolvedTemplate} (h : fetch view codes = .ok resolved)
    (code : String) : resolved.lookup code = if code ∈ codes then view code else none := by
  rw [fetch] at h
  split at h
  · cases h
    rw [Foundations.lookup_storeFound]
    simp
  · cases h

theorem known_of_fetch {view : String → Option ResolvedTemplate} {codes : List String}
    {resolved : HashMap String ResolvedTemplate} (h : fetch view codes = .ok resolved) :
    ∀ code ∈ codes, (view code).isSome := by
  rw [fetch] at h
  split at h
  · assumption
  · cases h

theorem lookup_hits (snapshot : HashMap String ResolvedTemplate) (codes : List String)
    (code : String) :
    (hits snapshot codes).lookup code = if code ∈ codes then snapshot.lookup code else none := by
  rw [hits, Foundations.lookup_storeFound]
  simp

end TemplateCache

/-- A body a posting was prepared with, beside what a lookup of its code would have found, in its
operation, at the statement that settled the body: its fence, or the refresh after it. -/
structure TemplateUse where
  code : String
  values : TxTemplateValues
  lookup : Option TxTemplateValues

/-- How far the posting of an operation is with its templates. -/
inductive PostingPhase
  /-- no posting under way, or its bodies are settled -/
  | idle
  /-- the snapshot is read, and `missing` is to be fetched -/
  | loaded (codes : List String) (used : HashMap String ResolvedTemplate) (missing : List String)
  /-- `resolved` is fetched, and to be installed -/
  | fetched (codes : List String) (used resolved : HashMap String ResolvedTemplate)
  /-- prepared, before the fence -/
  | prepared (codes : List String) (used : HashMap String ResolvedTemplate)
  /-- the fence reported `codes` stale -/
  | stale (codes : List String)
  /-- `resolved` is fetched again, and to be installed -/
  | refetched (resolved : HashMap String ResolvedTemplate)

/-- What a posting under way may still prepare with, or install. -/
def PostingPhase.Holds : PostingPhase → String → ResolvedTemplate → Prop
  | idle, _, _ => False
  | loaded _ used _, code, resolved => used.lookup code = some resolved
  | fetched _ used rows, code, resolved =>
      used.lookup code = some resolved ∨ rows.lookup code = some resolved
  | prepared _ used, code, resolved => used.lookup code = some resolved
  | stale _, _, _ => False
  | refetched rows, code, resolved => rows.lookup code = some resolved

/-- An open operation: its process, the templates it has created, its posting, and the bodies used
by its postings. -/
structure TemplateOp where
  process : ℕ
  created : String → Option ResolvedTemplate
  phase : PostingPhase
  uses : List TemplateUse

/-- The committed templates, the cache of each process, the open operations, and the bodies used by
the operations that have committed. -/
structure TemplateSessions where
  committed : String → Option ResolvedTemplate
  caches : ℕ → HashMap String ResolvedTemplate
  ops : ℕ → Option TemplateOp
  uses : List TemplateUse

namespace TemplateSessions

/-- What a lookup in an operation finds: its own templates and the committed ones. -/
def view (s : TemplateSessions) (op : TemplateOp) (code : String) : Option ResolvedTemplate :=
  (op.created code).or (s.committed code)

/-- A template that is committed or belongs to an open operation. -/
def Stored (s : TemplateSessions) (code : String) (template : ResolvedTemplate) : Prop :=
  s.committed code = some template
    ∨ ∃ o op, s.ops o = some op ∧ op.created code = some template

/-- A body some process has cached, or some posting under way has resolved. -/
def Held (s : TemplateSessions) (code : String) (resolved : ResolvedTemplate) : Prop :=
  (∃ process, (s.caches process).lookup code = some resolved)
    ∨ ∃ o op, s.ops o = some op ∧ op.phase.Holds code resolved

/-- **No other body is held under the code and id of a new template.** -/
def Fresh (s : TemplateSessions) (values : TxTemplateValues) : Prop :=
  ∀ resolved, s.Held values.code resolved → resolved.id = values.id →
    resolved.version = FIRST_VERSION → resolved.values = values

/-- The code and the id are taken by no template, committed or of an open operation: else the insert
waits or fails. -/
def Free (s : TemplateSessions) (values : TxTemplateValues) : Prop :=
  ∀ code template, s.Stored code template → code ≠ values.code ∧ template.id ≠ values.id

def setOp (s : TemplateSessions) (o : ℕ) (op : TemplateOp) : TemplateSessions :=
  { s with ops := Function.update s.ops o (some op) }

/-- An operation ends. -/
def endOp (s : TemplateSessions) (o : ℕ) : TemplateSessions :=
  { s with ops := Function.update s.ops o none }

/-- Install into the cache of a process. -/
def installIn (s : TemplateSessions) (process : ℕ) (resolved : HashMap String ResolvedTemplate) :
    TemplateSessions :=
  { s with
    caches := Function.update s.caches process
      (TemplateCache.install resolved (s.caches process)) }

/-- The template `create_in_op` inserts. -/
def newTemplate (values : TxTemplateValues) : ResolvedTemplate :=
  ⟨values.id, FIRST_VERSION, values⟩

/-- The bodies of some codes, as settled by a statement that sees `view`. -/
def usesOf (codes : List String) (used : HashMap String ResolvedTemplate)
    (view : String → Option ResolvedTemplate) : List TemplateUse :=
  codes.filterMap (fun code => (used.lookup code).map (fun resolved =>
    ⟨code, resolved.values, (view code).map ResolvedTemplate.values⟩))

/-- One statement, or one step of the cache between two. -/
inductive Step : TemplateSessions → TemplateSessions → Prop
  | beginOp {s : TemplateSessions} (o process : ℕ) : s.ops o = none →
      Step s (s.setOp o ⟨process, fun _ => none, .idle, []⟩)
  | load {s : TemplateSessions} (o : ℕ) {op : TemplateOp} (codes : List String) :
      s.ops o = some op → op.phase = .idle →
      Step s (s.setOp o { op with
        phase := .loaded codes (TemplateCache.hits (s.caches op.process) codes)
          (TemplateCache.missing (s.caches op.process) codes) })
  | fetch {s : TemplateSessions} (o : ℕ) {op : TemplateOp} {codes missing : List String}
      {used resolved : HashMap String ResolvedTemplate} :
      s.ops o = some op → op.phase = .loaded codes used missing →
      TemplateCache.fetch (s.view op) missing = .ok resolved →
      Step s (s.setOp o { op with phase := .fetched codes used resolved })
  | install {s : TemplateSessions} (o : ℕ) {op : TemplateOp} {codes : List String}
      {used resolved : HashMap String ResolvedTemplate} :
      s.ops o = some op → op.phase = .fetched codes used resolved →
      Step s ((s.installIn op.process resolved).setOp o
        { op with phase := .prepared codes (resolved ∪ used) })
  | fence {s : TemplateSessions} (o : ℕ) {op : TemplateOp} {codes : List String}
      {used : HashMap String ResolvedTemplate} :
      s.ops o = some op → op.phase = .prepared codes used →
      Step s (s.setOp o { op with
        phase := .stale (TemplateCache.stale codes used (TemplateCache.probe (s.view op)))
        uses := op.uses ++ usesOf (codes.filter (fun code =>
          code ∉ TemplateCache.stale codes used (TemplateCache.probe (s.view op)))) used
            (s.view op) })
  | refetch {s : TemplateSessions} (o : ℕ) {op : TemplateOp} {codes : List String}
      {resolved : HashMap String ResolvedTemplate} :
      s.ops o = some op → op.phase = .stale codes →
      TemplateCache.fetch (s.view op) codes = .ok resolved →
      Step s (s.setOp o { op with
        phase := .refetched resolved
        uses := op.uses ++ usesOf codes resolved (s.view op) })
  | reinstall {s : TemplateSessions} (o : ℕ) {op : TemplateOp}
      {resolved : HashMap String ResolvedTemplate} :
      s.ops o = some op → op.phase = .refetched resolved →
      Step s ((s.installIn op.process resolved).setOp o { op with phase := .idle })
  /-- the posting returns, with its transactions or with an error -/
  | finish {s : TemplateSessions} (o : ℕ) {op : TemplateOp} : s.ops o = some op →
      Step s (s.setOp o { op with phase := .idle })
  | commit {s : TemplateSessions} (o : ℕ) {op : TemplateOp} :
      s.ops o = some op → op.phase = .idle →
      Step s { s.endOp o with
        committed := s.view op
        uses := s.uses ++ op.uses }
  | rollback {s : TemplateSessions} (o : ℕ) {op : TemplateOp} : s.ops o = some op →
      Step s (s.endOp o)

/-- No templates, empty caches, no operations. -/
def initial : TemplateSessions := ⟨fun _ => none, fun _ => ∅, fun _ => none, []⟩

/-- The runs of a ledger that starts without templates, whose creations are `Allowed`. -/
inductive Run (Allowed : TemplateSessions → TxTemplateValues → Prop) : TemplateSessions → Prop
  | start : Run Allowed initial
  | step {s s' : TemplateSessions} : Run Allowed s → Step s s' → Run Allowed s'
  | create {s : TemplateSessions} (o : ℕ) {op : TemplateOp} (values : TxTemplateValues) :
      Run Allowed s → s.ops o = some op → op.phase = .idle → s.Free values → Allowed s values →
      Run Allowed (s.setOp o { op with
        created := Function.update op.created values.code (some (newTemplate values)) })

/-- **The cache is transparent**: every posting of a committed operation was prepared with the body
a lookup would have found. -/
def Transparent (s : TemplateSessions) : Prop :=
  ∀ use ∈ s.uses, use.lookup = some use.values

/-! ## The invariant -/

/-- A body is that of the stored template it names, if there is one. -/
def Agrees (s : TemplateSessions) (code : String) (resolved : ResolvedTemplate) : Prop :=
  ∀ template, s.Stored code template → template.id = resolved.id →
    template.version = resolved.version → template.values = resolved.values

/-- No code is stored twice, what is held is what is stored, and the bodies used so far are those a
lookup found. -/
structure Sound (s : TemplateSessions) : Prop where
  unique : ∀ {code template template'}, s.Stored code template → s.Stored code template' →
    template = template'
  agrees : ∀ {code resolved}, s.Held code resolved → s.Agrees code resolved
  settled : ∀ {o op}, s.ops o = some op → ∀ use ∈ op.uses, use.lookup = some use.values
  transparent : s.Transparent

section Steps

variable {s : TemplateSessions} {o : ℕ} {op op' : TemplateOp} {code : String}
  {template resolved : ResolvedTemplate}

theorem ops_setOp_self : (s.setOp o op').ops o = some op' := Function.update_self _ _ _

theorem ops_setOp_of_ne {o' : ℕ} (ho : o' ≠ o) : (s.setOp o op').ops o' = s.ops o' :=
  Function.update_of_ne ho _ _

/-- An operation after a change of one is that one, or as it was. -/
theorem ops_setOp {o' : ℕ} {other : TemplateOp} (h : (s.setOp o op').ops o' = some other) :
    o' = o ∧ other = op' ∨ s.ops o' = some other := by
  by_cases ho : o' = o
  · subst ho
    exact Or.inl ⟨rfl, Option.some.inj (h.symm.trans ops_setOp_self)⟩
  · exact Or.inr ((ops_setOp_of_ne ho).symm.trans h)

theorem ops_endOp_self : (s.endOp o).ops o = none := Function.update_self _ _ _

/-- The operations left when one ends are the others. -/
theorem ops_endOp {o' : ℕ} {other : TemplateOp} (h : (s.endOp o).ops o' = some other) :
    o' ≠ o ∧ s.ops o' = some other := by
  by_cases ho : o' = o
  · subst ho
    cases ops_endOp_self.symm.trans h
  · have hsame : (s.endOp o).ops o' = s.ops o' := Function.update_of_ne ho _ _
    exact ⟨ho, hsame.symm.trans h⟩

theorem stored_of_view (hop : s.ops o = some op) (h : s.view op code = some template) :
    s.Stored code template := by
  rw [view] at h
  rcases Option.or_eq_some_iff.mp h with hown | ⟨-, hcommitted⟩
  · exact Or.inr ⟨o, op, hop, hown⟩
  · exact Or.inl hcommitted

/-- An operation that creates nothing leaves the stored templates as they are. -/
theorem stored_of_setOp (hop : s.ops o = some op) (hcreated : op'.created = op.created)
    (h : (s.setOp o op').Stored code template) : s.Stored code template := by
  rcases h with hcommitted | ⟨o', other, hother, htemplate⟩
  · exact Or.inl hcommitted
  · rcases ops_setOp hother with ⟨rfl, rfl⟩ | hold
    · exact Or.inr ⟨o', op, hop, hcreated ▸ htemplate⟩
    · exact Or.inr ⟨o', other, hold, htemplate⟩

theorem held_setOp (h : (s.setOp o op').Held code resolved) :
    s.Held code resolved ∨ op'.phase.Holds code resolved := by
  rcases h with hcached | ⟨o', other, hother, hholds⟩
  · exact Or.inl (Or.inl hcached)
  · rcases ops_setOp hother with ⟨rfl, rfl⟩ | hold
    · exact Or.inr hholds
    · exact Or.inl (Or.inr ⟨o', other, hold, hholds⟩)

/-- An operation moves on: what its posting holds must agree, and its uses must be settled. -/
theorem Sound.setOp (h : s.Sound) (hop : s.ops o = some op) (hcreated : op'.created = op.created)
    (hholds : ∀ code resolved, op'.phase.Holds code resolved → s.Agrees code resolved)
    (huses : ∀ use ∈ op'.uses, use.lookup = some use.values) : (s.setOp o op').Sound where
  unique := fun ht ht' =>
    h.unique (stored_of_setOp hop hcreated ht) (stored_of_setOp hop hcreated ht')
  agrees := by
    intro code resolved hheld template htemplate
    have hagrees : s.Agrees code resolved := by
      rcases held_setOp hheld with hold | hnew
      · exact h.agrees hold
      · exact hholds code resolved hnew
    exact hagrees template (stored_of_setOp hop hcreated htemplate)
  settled := by
    intro o' other hother
    rcases ops_setOp hother with ⟨-, rfl⟩ | hold
    · exact huses
    · exact h.settled hold
  transparent := h.transparent

/-- A cache takes in bodies that agree. -/
theorem Sound.installIn (h : s.Sound) (process : ℕ) {rows : HashMap String ResolvedTemplate}
    (hrows : ∀ code resolved, rows.lookup code = some resolved → s.Agrees code resolved) :
    (s.installIn process rows).Sound where
  unique := h.unique
  agrees := by
    rintro code resolved (⟨process', hcached⟩ | hholds)
    · by_cases hprocess : process' = process
      · subst hprocess
        have hcache : (s.installIn process' rows).caches process' = rows ∪ s.caches process' :=
          Function.update_self _ _ _
        rw [hcache, Foundations.lookup_union] at hcached
        rcases Option.or_eq_some_iff.mp hcached with hnew | ⟨-, hold⟩
        · exact hrows code resolved hnew
        · exact h.agrees (Or.inl ⟨process', hold⟩)
      · have hcache : (s.installIn process rows).caches process' = s.caches process' :=
          Function.update_of_ne hprocess _ _
        rw [hcache] at hcached
        exact h.agrees (Or.inl ⟨process', hcached⟩)
    · exact h.agrees (Or.inr hholds)
  settled := h.settled
  transparent := h.transparent

/-- What is fetched is stored. -/
theorem Sound.agrees_of_fetch (h : s.Sound) (hop : s.ops o = some op) {codes : List String}
    {rows : HashMap String ResolvedTemplate}
    (hfetch : TemplateCache.fetch (s.view op) codes = .ok rows) :
    ∀ code resolved, rows.lookup code = some resolved → s.Agrees code resolved := by
  intro code resolved hlookup template htemplate _ _
  rw [TemplateCache.lookup_of_fetch hfetch] at hlookup
  split at hlookup
  · rw [h.unique htemplate (stored_of_view hop hlookup)]
  · cases hlookup

/-- **The bodies the fence lets through are the stored ones.** -/
theorem Sound.settled_fence (h : s.Sound) (hop : s.ops o = some op) {codes : List String}
    {used : HashMap String ResolvedTemplate} (hphase : op.phase = .prepared codes used) :
    ∀ use ∈ usesOf (codes.filter (fun code =>
        code ∉ TemplateCache.stale codes used (TemplateCache.probe (s.view op)))) used (s.view op),
      use.lookup = some use.values := by
  intro use huse
  obtain ⟨code, hcode, huse⟩ := List.mem_filterMap.mp huse
  obtain ⟨resolved, hresolved, rfl⟩ := Option.map_eq_some_iff.mp huse
  obtain ⟨hmem, hcurrent⟩ := List.mem_filter.mp hcode
  rw [decide_eq_true_eq, TemplateCache.stale, List.mem_filter, hresolved, Option.any_some] at hcurrent
  have hprobe : TemplateCache.probe (s.view op) code = some (resolved.id, resolved.version) := by
    by_contra hne
    exact hcurrent ⟨hmem, decide_eq_true hne⟩
  obtain ⟨template, hview, heq⟩ := Option.map_eq_some_iff.mp hprobe
  obtain ⟨hid, hversion⟩ := Prod.mk.inj heq
  have hheld : s.Held code resolved := by
    refine Or.inr ⟨o, op, hop, ?_⟩
    rw [hphase]
    exact hresolved
  show (s.view op code).map ResolvedTemplate.values = some resolved.values
  rw [hview, Option.map_some,
    h.agrees hheld template (stored_of_view hop hview) hid hversion]

/-- The bodies of a refresh are the ones it has just looked up. -/
theorem settled_refetch {view : String → Option ResolvedTemplate} {codes : List String}
    {rows : HashMap String ResolvedTemplate} (hfetch : TemplateCache.fetch view codes = .ok rows) :
    ∀ use ∈ usesOf codes rows view, use.lookup = some use.values := by
  intro use huse
  obtain ⟨code, hcode, huse⟩ := List.mem_filterMap.mp huse
  obtain ⟨resolved, hresolved, rfl⟩ := Option.map_eq_some_iff.mp huse
  rw [TemplateCache.lookup_of_fetch hfetch, if_pos hcode] at hresolved
  show (view code).map ResolvedTemplate.values = some resolved.values
  rw [hresolved, Option.map_some]

/-- What stays when an operation ends was there before. -/
theorem stored_endOp (h : (s.endOp o).Stored code template) : s.Stored code template := by
  rcases h with hcommitted | ⟨o', other, hother, htemplate⟩
  · exact Or.inl hcommitted
  · exact Or.inr ⟨o', other, (ops_endOp hother).2, htemplate⟩

theorem held_endOp (h : (s.endOp o).Held code resolved) : s.Held code resolved := by
  rcases h with hcached | ⟨o', other, hother, hholds⟩
  · exact Or.inl hcached
  · exact Or.inr ⟨o', other, (ops_endOp hother).2, hholds⟩

/-- **Every step keeps the invariant.** -/
theorem Step.sound {s' : TemplateSessions} (h : s.Sound) (hstep : Step s s') : s'.Sound := by
  cases hstep with
  | beginOp o process hnone =>
      -- a new operation has created nothing and holds nothing
      have hstored : ∀ {code template}, (s.setOp o ⟨process, fun _ => none, .idle, []⟩).Stored code
          template → s.Stored code template := by
        rintro code template (hcommitted | ⟨o', other, hother, htemplate⟩)
        · exact Or.inl hcommitted
        · rcases ops_setOp hother with ⟨-, rfl⟩ | hold
          · cases htemplate
          · exact Or.inr ⟨o', other, hold, htemplate⟩
      refine ⟨fun ht ht' => h.unique (hstored ht) (hstored ht'), ?_, ?_, h.transparent⟩
      · intro code resolved hheld template htemplate
        rcases held_setOp hheld with hold | hnew
        · exact h.agrees hold template (hstored htemplate)
        · exact hnew.elim
      · intro o' other hother
        rcases ops_setOp hother with ⟨-, rfl⟩ | hold
        · exact fun _ huse => (List.not_mem_nil huse).elim
        · exact h.settled hold
  | @load o op codes hop hphase =>
      refine h.setOp hop rfl (fun code resolved hholds => ?_) (fun use huse => h.settled hop use huse)
      have hlookup : (TemplateCache.hits (s.caches op.process) codes).lookup code = some resolved :=
        hholds
      rw [TemplateCache.lookup_hits] at hlookup
      split at hlookup
      · exact h.agrees (Or.inl ⟨op.process, hlookup⟩)
      · cases hlookup
  | @fetch o op codes missing used rows hop hphase hfetch =>
      refine h.setOp hop rfl (fun code resolved hholds => ?_)
        (fun use huse => h.settled hop use huse)
      rcases hholds with hused | hrows
      · refine h.agrees (Or.inr ⟨o, op, hop, ?_⟩)
        rw [hphase]
        exact hused
      · exact h.agrees_of_fetch hop hfetch code resolved hrows
  | @install o op codes used rows hop hphase =>
      have hrows : ∀ code resolved, rows.lookup code = some resolved → s.Agrees code resolved := by
        intro code resolved hlookup
        refine h.agrees (Or.inr ⟨o, op, hop, ?_⟩)
        rw [hphase]
        exact Or.inr hlookup
      refine (h.installIn op.process hrows).setOp hop rfl (fun code resolved hholds => ?_)
        (fun use huse => h.settled hop use huse)
      have hlookup : (rows ∪ used).lookup code = some resolved := hholds
      rw [Foundations.lookup_union] at hlookup
      rcases Option.or_eq_some_iff.mp hlookup with hnew | ⟨-, hused⟩
      · exact hrows code resolved hnew
      · refine h.agrees (Or.inr ⟨o, op, hop, ?_⟩)
        rw [hphase]
        exact Or.inl hused
  | @fence o op codes used hop hphase =>
      refine h.setOp hop rfl (fun code resolved hholds => hholds.elim) (fun use huse => ?_)
      rcases List.mem_append.mp huse with hold | hnew
      · exact h.settled hop use hold
      · exact h.settled_fence hop hphase use hnew
  | @refetch o op codes rows hop hphase hfetch =>
      refine h.setOp hop rfl (fun code resolved hholds => ?_) (fun use huse => ?_)
      · exact h.agrees_of_fetch hop hfetch code resolved hholds
      · rcases List.mem_append.mp huse with hold | hnew
        · exact h.settled hop use hold
        · exact settled_refetch hfetch use hnew
  | @reinstall o op rows hop hphase =>
      refine (h.installIn op.process (fun code resolved hlookup => ?_)).setOp hop rfl
        (fun code resolved hholds => hholds.elim)
        (fun use huse => h.settled hop use huse)
      refine h.agrees (Or.inr ⟨o, op, hop, ?_⟩)
      rw [hphase]
      exact hlookup
  | @finish o op hop =>
      exact h.setOp hop rfl (fun code resolved hholds => hholds.elim)
        (fun use huse => h.settled hop use huse)
  | @commit o op hop hphase =>
      -- the templates of the operation move among the committed ones
      have hstored : ∀ {code template}, TemplateSessions.Stored { s.endOp o with
          committed := s.view op
          uses := s.uses ++ op.uses } code template → s.Stored code template := by
        rintro code template (hcommitted | hopen)
        · exact stored_of_view hop hcommitted
        · exact stored_endOp (Or.inr hopen)
      refine ⟨fun ht ht' => h.unique (hstored ht) (hstored ht'), ?_, ?_, ?_⟩
      · intro code resolved hheld template htemplate
        have hold : s.Held code resolved := held_endOp hheld
        exact h.agrees hold template (hstored htemplate)
      · intro o' other hother
        exact h.settled (ops_endOp hother).2
      · intro use huse
        rcases List.mem_append.mp huse with hold | hnew
        · exact h.transparent use hold
        · exact h.settled hop use hnew
  | @rollback o op hop =>
      refine ⟨fun ht ht' => h.unique (stored_endOp ht) (stored_endOp ht'), ?_, ?_, h.transparent⟩
      · intro code resolved hheld template htemplate
        exact h.agrees (held_endOp hheld) template (stored_endOp htemplate)
      · intro o' other hother
        exact h.settled (ops_endOp hother).2

/-- **A fresh creation keeps the invariant.** -/
theorem Sound.create (h : s.Sound) (hop : s.ops o = some op) (hphase : op.phase = .idle)
    {values : TxTemplateValues} (hfree : s.Free values) (hfresh : s.Fresh values) :
    (s.setOp o { op with
      created := Function.update op.created values.code (some (newTemplate values)) }).Sound := by
  set op' : TemplateOp := { op with
    created := Function.update op.created values.code (some (newTemplate values)) } with hop'
  have hstored : ∀ {code template}, (s.setOp o op').Stored code template →
      s.Stored code template ∨ code = values.code ∧ template = newTemplate values := by
    rintro code template (hcommitted | ⟨o', other, hother, htemplate⟩)
    · exact Or.inl (Or.inl hcommitted)
    · rcases ops_setOp hother with ⟨rfl, rfl⟩ | hold
      · by_cases hcode : code = values.code
        · subst hcode
          have hnew : Function.update op.created values.code (some (newTemplate values)) values.code
              = some template := htemplate
          rw [Function.update_self] at hnew
          exact Or.inr ⟨rfl, (Option.some.inj hnew).symm⟩
        · have hown : Function.update op.created values.code (some (newTemplate values)) code
              = some template := htemplate
          rw [Function.update_of_ne hcode] at hown
          exact Or.inl (Or.inr ⟨o', op, hop, hown⟩)
      · exact Or.inl (Or.inr ⟨o', other, hold, htemplate⟩)
  have hheld : ∀ {code resolved}, (s.setOp o op').Held code resolved → s.Held code resolved := by
    intro code resolved hheld
    rcases held_setOp hheld with hold | hnew
    · exact hold
    · rw [hop', hphase] at hnew
      exact hnew.elim
  refine ⟨?_, ?_, ?_, h.transparent⟩
  · intro code template template' ht ht'
    rcases hstored ht with hold | ⟨hcode, rfl⟩
    · rcases hstored ht' with hold' | ⟨hcode, rfl⟩
      · exact h.unique hold hold'
      · exact ((hfree code template hold).1 hcode).elim
    · rcases hstored ht' with hold' | ⟨-, rfl⟩
      · exact ((hfree code template' hold').1 hcode).elim
      · rfl
  · intro code resolved hresolved template htemplate hid hversion
    rcases hstored htemplate with hold | ⟨rfl, rfl⟩
    · exact h.agrees (hheld hresolved) template hold hid hversion
    · exact (hfresh resolved (hheld hresolved) hid.symm hversion.symm).symm
  · intro o' other hother
    rcases ops_setOp hother with ⟨-, rfl⟩ | hold
    · exact fun use huse => h.settled hop use huse
    · exact h.settled hold

end Steps

theorem not_stored_initial {code : String} {template : ResolvedTemplate} :
    ¬ initial.Stored code template := by
  rintro (h | ⟨o, op, hop, -⟩)
  · cases h
  · cases hop

theorem not_held_initial {code : String} {resolved : ResolvedTemplate} :
    ¬ initial.Held code resolved := by
  rintro (⟨process, h⟩ | ⟨o, op, hop, -⟩)
  · cases h
  · cases hop

theorem Run.sound {s : TemplateSessions} (h : Run Fresh s) : s.Sound := by
  induction h with
  | start =>
      exact ⟨fun ht _ => (not_stored_initial ht).elim, fun hheld => (not_held_initial hheld).elim,
        fun hop => (Option.some_ne_none _ hop.symm).elim, fun _ huse => (List.not_mem_nil huse).elim⟩
  | step _ hstep ih => exact hstep.sound ih
  | create o values _ hop hphase hfree hfresh ih => exact ih.create hop hphase hfree hfresh

/-! ## What the flow prepares -/

/-- Every code of the batch is resolved, or about to be fetched. -/
def Covered : PostingPhase → Prop
  | .loaded codes used missing => ∀ code ∈ codes, (used.lookup code).isSome ∨ code ∈ missing
  | .fetched codes used rows => ∀ code ∈ codes, (rows.lookup code).isSome ∨ (used.lookup code).isSome
  | .prepared codes used => ∀ code ∈ codes, (used.lookup code).isSome
  | _ => True

theorem Step.covered {s s' : TemplateSessions}
    (h : ∀ {o op}, s.ops o = some op → Covered op.phase) (hstep : Step s s') :
    ∀ {o op}, s'.ops o = some op → Covered op.phase := by
  intro o' op' hop'
  cases hstep with
  | beginOp o process =>
      rcases ops_setOp hop' with ⟨-, rfl⟩ | hold
      · exact trivial
      · exact h hold
  | @load o op codes =>
      rcases ops_setOp hop' with ⟨-, rfl⟩ | hold
      · intro code hcode
        rw [TemplateCache.lookup_hits, if_pos hcode, TemplateCache.missing, List.mem_filter]
        cases (s.caches op.process).lookup code with
        | none => exact Or.inr ⟨hcode, rfl⟩
        | some resolved => exact Or.inl rfl
      · exact h hold
  | @fetch o op codes missing used rows hop hphase hfetch =>
      rcases ops_setOp hop' with ⟨-, rfl⟩ | hold
      · have hloaded := h hop
        rw [hphase] at hloaded
        intro code hcode
        rcases hloaded code hcode with hused | hmissing
        · exact Or.inr hused
        · rw [TemplateCache.lookup_of_fetch hfetch, if_pos hmissing]
          exact Or.inl (TemplateCache.known_of_fetch hfetch code hmissing)
      · exact h hold
  | @install o op codes used rows hop hphase =>
      rcases ops_setOp hop' with ⟨-, rfl⟩ | hold
      · have hfetched := h hop
        rw [hphase] at hfetched
        intro code hcode
        rw [Foundations.lookup_union, Option.isSome_or, Bool.or_eq_true]
        exact hfetched code hcode
      · exact h hold
  | fence o =>
      rcases ops_setOp hop' with ⟨-, rfl⟩ | hold
      · exact trivial
      · exact h hold
  | refetch o =>
      rcases ops_setOp hop' with ⟨-, rfl⟩ | hold
      · exact trivial
      · exact h hold
  | reinstall o =>
      rcases ops_setOp hop' with ⟨-, rfl⟩ | hold
      · exact trivial
      · exact h hold
  | finish o =>
      rcases ops_setOp hop' with ⟨-, rfl⟩ | hold
      · exact trivial
      · exact h hold
  | commit o => exact h (ops_endOp hop').2
  | rollback o => exact h (ops_endOp hop').2

theorem Run.covered {Allowed : TemplateSessions → TxTemplateValues → Prop} {s : TemplateSessions}
    (h : Run Allowed s) : ∀ {o op}, s.ops o = some op → Covered op.phase := by
  induction h with
  | start => exact fun hop => (Option.some_ne_none _ hop.symm).elim
  | step _ hstep ih => exact hstep.covered ih
  | @create s o op values _ hop _ _ _ ih =>
      intro o' op' hop'
      rcases ops_setOp hop' with ⟨-, rfl⟩ | hold
      · show Covered op.phase
        exact ih hop
      · exact ih hold

/-- The bodies a batch is prepared with. -/
def bodies (codes : List String) (used : HashMap String ResolvedTemplate) :
    HashMap String TxTemplateValues :=
  Foundations.storeFound codes (fun code => (used.lookup code).map ResolvedTemplate.values) ∅

/-- **Past a fence that reports nothing stale, the flow has prepared from the tables.** -/
theorem Run.prepareAll_eq_ok {s : TemplateSessions} (h : Run Fresh s) {o : ℕ} {op : TemplateOp}
    (hop : s.ops o = some op) {batch : List PostingInput} {used : HashMap String ResolvedTemplate}
    (hphase : op.phase = .prepared (batch.map PostingInput.txTemplateCode).dedup used)
    (hcurrent : TemplateCache.stale (batch.map PostingInput.txTemplateCode).dedup used
      (TemplateCache.probe (s.view op)) = [])
    (ids : EntryIds) (prepared : List PreparedTransaction) :
    prepareAllFrom ids (bodies (batch.map PostingInput.txTemplateCode).dedup used) 0 [] [] batch
        = .ok prepared
      ↔ prepareAll ids (fun code => (s.view op code).map ResolvedTemplate.values) batch
        = .ok prepared := by
  set codes := (batch.map PostingInput.txTemplateCode).dedup with hcodes
  set templates : String → Option TxTemplateValues :=
    fun code => (s.view op code).map ResolvedTemplate.values with htemplates
  have hcovered := h.covered hop
  rw [hphase] at hcovered
  have hbody : ∀ code ∈ codes, (bodies codes used).lookup code = templates code := by
    intro code hcode
    obtain ⟨resolved, hresolved⟩ := Option.isSome_iff_exists.mp (hcovered code hcode)
    have hsettled := h.sound.settled_fence hop hphase
      ⟨code, resolved.values, templates code⟩ (by
        refine List.mem_filterMap.mpr ⟨code, List.mem_filter.mpr ⟨hcode, ?_⟩, ?_⟩
        · rw [hcurrent]
          exact decide_eq_true List.not_mem_nil
        · rw [hresolved, Option.map_some])
    rw [bodies, Foundations.lookup_storeFound, if_pos hcode, hresolved]
    exact hsettled.symm
  have hused : ∀ input ∈ batch,
      (bodies codes used).lookup input.txTemplateCode = templates input.txTemplateCode :=
    fun input hinput => hbody _ (List.mem_dedup.mpr (List.mem_map_of_mem hinput))
  exact prepareAllFrom_eq_prepareAll hused

/-! ## A posting from the cache -/

section Posting

/-- A body whose id and version are the observed ones passes the fence. -/
theorem mem_usesOf_fence (view : String → Option ResolvedTemplate) {codes : List String}
    {used : HashMap String ResolvedTemplate} {code : String} {resolved template : ResolvedTemplate}
    (hcode : code ∈ codes) (hused : used.lookup code = some resolved)
    (hview : view code = some template) (hid : template.id = resolved.id)
    (hversion : template.version = resolved.version) :
    ⟨code, resolved.values, some template.values⟩ ∈ usesOf (codes.filter (fun code =>
      code ∉ TemplateCache.stale codes used (TemplateCache.probe view))) used view := by
  refine List.mem_filterMap.mpr ⟨code, List.mem_filter.mpr ⟨hcode, decide_eq_true ?_⟩, ?_⟩
  · intro hstale
    obtain ⟨-, hstale⟩ := List.mem_filter.mp hstale
    rw [hused, Option.any_some, decide_eq_true_eq] at hstale
    apply hstale
    rw [TemplateCache.probe, hview, Option.map_some, hid, hversion]
  · rw [hused, hview, Option.map_some, Option.map_some]

variable {Allowed : TemplateSessions → TxTemplateValues → Prop} {s : TemplateSessions} {o : ℕ}

/-- **A posting uses the cached body** if the fence finds its id and version. -/
theorem Run.post_cached (h : Run Allowed s) (hnone : s.ops o = none) {process : ℕ} {code : String}
    {resolved template : ResolvedTemplate}
    (hcached : (s.caches process).lookup code = some resolved)
    (hcommitted : s.committed code = some template)
    (hid : template.id = resolved.id) (hversion : template.version = resolved.version) :
    ∃ s', Run Allowed s' ∧ ⟨code, resolved.values, some template.values⟩ ∈ s'.uses := by
  -- begin, read the snapshot, fetch nothing, install nothing, fence, commit
  have hbegun := h.step (Step.beginOp o process hnone)
  have hloaded := hbegun.step (Step.load o [code] ops_setOp_self rfl)
  have hfetch : ∀ view, TemplateCache.fetch view (TemplateCache.missing (s.caches process) [code])
      = .ok ∅ := by
    intro view
    have hmissing : TemplateCache.missing (s.caches process) [code] = [] := by
      simp [TemplateCache.missing, hcached]
    rw [hmissing]
    rfl
  have hfetched := hloaded.step (Step.fetch o ops_setOp_self rfl (hfetch _))
  have hprepared := hfetched.step (Step.install o ops_setOp_self rfl)
  have hfenced := hprepared.step (Step.fence o ops_setOp_self rfl)
  have hfinished := hfenced.step (Step.finish o ops_setOp_self)
  have hused : (∅ ∪ TemplateCache.hits (s.caches process) [code] :
      HashMap String ResolvedTemplate).lookup code = some resolved := by
    rw [Foundations.lookup_union, AList.lookup_empty, Option.none_or, TemplateCache.lookup_hits,
      if_pos (List.mem_singleton_self code), hcached]
  refine ⟨_, hfinished.step (Step.commit o ops_setOp_self rfl), ?_⟩
  have huse := mem_usesOf_fence s.committed (List.mem_singleton_self code) hused
    hcommitted hid hversion
  exact List.mem_append_right _ (List.mem_append_right _ huse)

/-- An operation that begins, creates a template and starts to post with it leaves the body in the
cache of its process, whatever becomes of the operation. -/
theorem Run.cache_own (h : Run Allowed s) {o : ℕ} (hnone : s.ops o = none) (process : ℕ)
    (values : TxTemplateValues) (hfree : s.Free values)
    (hallowed : Allowed (s.setOp o ⟨process, fun _ => none, .idle, []⟩) values)
    (hcache : (s.caches process).lookup values.code = none) :
    ∃ s' op, Run Allowed s' ∧ s'.ops o = some op ∧ (∀ o', o' ≠ o → s'.ops o' = s.ops o')
      ∧ s'.committed = s.committed
      ∧ op.created = Function.update (fun _ => none) values.code (some (newTemplate values))
      ∧ (s'.caches process).lookup values.code = some (newTemplate values) := by
  have hbegun := h.step (Step.beginOp o process hnone)
  have hcreated := hbegun.create o values ops_setOp_self rfl (fun code template hstored => by
    refine hfree code template ?_
    rcases hstored with hcommitted | ⟨o', op, hop, htemplate⟩
    · exact Or.inl hcommitted
    · rcases ops_setOp hop with ⟨-, rfl⟩ | hold
      · cases htemplate
      · exact Or.inr ⟨o', op, hold, htemplate⟩) hallowed
  have hloaded := hcreated.step (Step.load o [values.code] ops_setOp_self rfl)
  set view : String → Option ResolvedTemplate := fun code =>
    (Function.update (fun _ => none) values.code (some (newTemplate values)) code).or
      (s.committed code) with hview
  have hown : view values.code = some (newTemplate values) := by
    rw [hview]
    simp
  have hfetch : TemplateCache.fetch view (TemplateCache.missing (s.caches process) [values.code])
      = .ok (Foundations.storeFound [values.code] view ∅) := by
    have hmissing : TemplateCache.missing (s.caches process) [values.code] = [values.code] := by
      simp [TemplateCache.missing, hcache]
    rw [hmissing, TemplateCache.fetch, if_pos]
    intro code hcode
    rw [List.mem_singleton.mp hcode, hown]
    rfl
  have hfetched := hloaded.step (Step.fetch o ops_setOp_self rfl hfetch)
  have hinstalled := hfetched.step (Step.install o ops_setOp_self rfl)
  refine ⟨_, _, hinstalled, ops_setOp_self, fun o' ho => ?_, rfl, rfl, ?_⟩
  · rw [ops_setOp_of_ne ho]
    show (TemplateSessions.setOp _ o _).ops o' = _
    rw [ops_setOp_of_ne ho, ops_setOp_of_ne ho, ops_setOp_of_ne ho, ops_setOp_of_ne ho]
  · show (Function.update s.caches process (TemplateCache.install _ (s.caches process)) process).lookup
      values.code = _
    rw [Function.update_self, TemplateCache.install, Foundations.lookup_union,
      Foundations.lookup_storeFound, if_pos (List.mem_singleton_self _), hown, Option.some_or,
      Option.some_or]

end Posting

/-- **A creation that is not fresh can be misused**: where a process caches another body under its
code and id, a posting of that process is prepared with it after the creation commits. -/
theorem exists_misuse {s : TemplateSessions} (h : Run (fun _ _ => True) s) {o : ℕ} {op : TemplateOp}
    (hop : s.ops o = some op) (hidle : op.phase = .idle) {values : TxTemplateValues}
    (hfree : s.Free values) {process : ℕ} {resolved : ResolvedTemplate}
    (hcached : (s.caches process).lookup values.code = some resolved)
    (hid : resolved.id = values.id) (hversion : resolved.version = FIRST_VERSION)
    (hother : resolved.values ≠ values) :
    ∃ s', Run (fun _ _ => True) s' ∧ ¬ s'.Transparent := by
  have hcreated := h.create o values hop hidle hfree trivial
  have hcommitted := hcreated.step (Step.commit o ops_setOp_self hidle)
  have hstored : ((Function.update op.created values.code (some (newTemplate values))) values.code).or
      (s.committed values.code) = some (newTemplate values) := by
    rw [Function.update_self, Option.some_or]
  obtain ⟨s', hrun, huse⟩ := hcommitted.post_cached ops_endOp_self hcached hstored hid.symm
    hversion.symm
  refine ⟨s', hrun, fun htransparent => hother ?_⟩
  exact (Option.some.inj (htransparent _ huse)).symm

/-- **The template cache is transparent to postings that commit**, in every run whose creations are
fresh. -/
theorem template_cache_transparent {s : TemplateSessions} (h : Run Fresh s) : s.Transparent :=
  h.sound.transparent

theorem template_cache_transparent_sample :
    ∃ s : TemplateSessions, (∃ use ∈ s.uses, use.code = "move") ∧ s.Transparent := by
  set values := sampleTemplate "move" (1, .credit) (2, .debit) with hvalues
  have hfresh : Fresh (initial.setOp 0 ⟨0, fun _ => none, .idle, []⟩) values := by
    intro resolved hheld
    rcases held_setOp hheld with hold | hnew
    · exact (not_held_initial hold).elim
    · exact hnew.elim
  -- created, cached and committed by one operation, posted with by another
  have hstart : Run Fresh initial := Run.start
  obtain ⟨s, op, hrun, hop, -, -, hcreated, hcached⟩ := hstart.cache_own
    (show initial.ops 0 = none from rfl) 0 values
    (fun code template hstored => (not_stored_initial hstored).elim) hfresh rfl
  have hcommitted := (hrun.step (Step.finish 0 hop)).step (Step.commit 0 ops_setOp_self rfl)
  have hstored : (op.created values.code).or (s.committed values.code)
      = some (newTemplate values) := by
    rw [hcreated, Function.update_self, Option.some_or]
  obtain ⟨s', hposted, huse⟩ := hcommitted.post_cached ops_endOp_self hcached hstored rfl rfl
  exact ⟨s', ⟨_, huse, rfl⟩, template_cache_transparent hposted⟩

/-- **A body that was rolled back may be posted with**: it stays in the cache of the process that
began to post with it, and a later creation under its code and id has the same first version. -/
theorem rolled_back_template_used :
    ¬ ∀ s : TemplateSessions, Run (fun _ _ => True) s → s.Transparent := by
  intro htransparent
  set values := sampleTemplate "move" (1, .credit) (2, .debit) with hvalues
  set other : TxTemplateValues := { values with entries := [] } with hother
  have hne : values ≠ other := by
    intro heq
    have hlength := congrArg (fun template => template.entries.length) heq
    exact absurd hlength (by decide)
  have hstart : Run (fun _ _ => True) initial := Run.start
  obtain ⟨s, op, hrun, hop, hops, hcommitted, -, hcached⟩ := hstart.cache_own
    (show initial.ops 0 = none from rfl) 0 values
    (fun code template hstored => (not_stored_initial hstored).elim) trivial rfl
  -- the first operation rolls back, and another one creates the template again
  have hagain := (hrun.step (Step.rollback 0 hop)).step (Step.beginOp 1 1 (by
    show Function.update s.ops 0 none 1 = none
    rw [Function.update_of_ne Nat.one_ne_zero, hops 1 Nat.one_ne_zero]
    rfl))
  have hfree : ((s.endOp 0).setOp 1 ⟨1, fun _ => none, .idle, []⟩).Free other := by
    intro code template hstored
    rcases hstored with h | ⟨o, op', hop', htemplate⟩
    · rw [show ((s.endOp 0).setOp 1 _).committed = s.committed from rfl, hcommitted] at h
      cases h
    · rcases ops_setOp hop' with ⟨-, rfl⟩ | hold
      · cases htemplate
      · obtain ⟨ho, hold⟩ := ops_endOp hold
        rw [hops o ho] at hold
        cases hold
  obtain ⟨s', hrun', hmisused⟩ := exists_misuse hagain ops_setOp_self rfl hfree hcached rfl rfl hne
  exact hmisused (htransparent s' hrun')

end TemplateSessions

end CalaLedger
