import PgMentat.Mentatd.Handlers
import PgMentat.Mentatd.CacheCoherence

namespace PgMentat

open List QueryCache Sections StatementProgram

/-- An answer without dependencies counts as touched by everything. -/
def Commit.Touches (commit : Commit) (deps : List Int64) : Prop :=
  deps = [] ∨ ∃ r ∈ commit.report.txData, r.e ∈ deps

namespace Timeline

/-- No transaction after the first `n` that touches the dependencies has begun to invalidate. -/
def UnmarkedSince (w : Timeline) (invalidated : List Nat) (n : Nat) (deps : List Int64) : Prop :=
  ∀ (i : Nat) (commit : Commit), n ≤ i → w.commits[i]? = some commit → commit.Touches deps →
    i + 1 ∉ invalidated

/-- The first `n` transactions have all begun to invalidate. -/
def AllMarked (invalidated : List Nat) (n : Nat) : Prop := ∀ i < n, i + 1 ∈ invalidated

def Grows (w w' : Timeline) : Prop := w'.start = w.start ∧ ∃ more, w'.commits = w.commits ++ more

def Framed (w : Timeline) : Prop :=
  ∀ (i : Nat) (commit : Commit), w.commits[i]? = some commit → commit.report.txData ≠ [] ∧
    ∀ deps, ¬ commit.Touches deps → Db.AgreeOn deps (w.after i) (w.after (i + 1))

variable {w w' : Timeline} {n : Nat} {deps : List Int64} {done : List Nat}

theorem Grows.refl (w : Timeline) : w.Grows w := ⟨rfl, [], (append_nil _).symm⟩

theorem grows_append (w : Timeline) (commit : Commit) :
    w.Grows { w with commits := w.commits ++ [commit] } := ⟨rfl, [commit], rfl⟩

theorem Grows.length_le (h : w.Grows w') : w.commits.length ≤ w'.commits.length := by
  obtain ⟨-, more, hmore⟩ := h
  simp [hmore]

theorem Grows.getElem? (h : w.Grows w') {i : Nat} {commit : Commit}
    (hi : w.commits[i]? = some commit) : w'.commits[i]? = some commit := by
  obtain ⟨-, more, hmore⟩ := h
  rw [hmore, List.getElem?_append_left (List.getElem?_eq_some_iff.mp hi).1, hi]

theorem Grows.after (h : w.Grows w') (hn : n ≤ w.commits.length) : w'.after n = w.after n := by
  cases n with
  | zero => exact h.1
  | succ n =>
    obtain ⟨hstart, more, hmore⟩ := h
    simp only [Timeline.after, hmore, hstart]
    rw [List.getElem?_append_left (by omega)]

theorem after_length_append (w : Timeline) (commit : Commit) :
    after { w with commits := w.commits ++ [commit] } (w.commits.length + 1) = commit.db := by
  simp [Timeline.after]

theorem Framed.agreeOn (h : w.Framed) {j : Nat} (d : Nat) (hd : j + d ≤ w.commits.length)
    (huntouched : ∀ (i : Nat) (commit : Commit), j ≤ i → i < j + d → w.commits[i]? = some commit →
      ¬ commit.Touches deps) : Db.AgreeOn deps (w.after j) (w.after (j + d)) := by
  induction d with
  | zero => exact ⟨rfl, fun _ _ => Iff.rfl, fun _ _ => Iff.rfl⟩
  | succ d ih =>
    have hlt : j + d < w.commits.length := by omega
    have hget : w.commits[j + d]? = some w.commits[j + d] := List.getElem?_eq_getElem hlt
    have hlast := (h (j + d) _ hget).2 deps (huntouched _ _ (by omega) (by omega) hget)
    refine (ih (by omega) fun i commit hi hid => huntouched i commit hi (by omega)).trans ?_
    exact hlast

end Timeline

/-- A request, and the number of a transaction that was acknowledged before it started. -/
structure Arrival where
  request : MentatdRequest
  floor : Nat

abbrev MentatdConfig :=
  Config CacheSection CacheSection.Reply CacheOp.Reply DbStmt.Reply SharedCache Timeline Arrival
    Outcome

abbrev MentatdAtomic :=
  AtomicConfig CacheOp.Reply DbStmt.Reply SharedCache Timeline Arrival Outcome

def MentatdConfig.start (capacity ttl : Nat) (db : Db) : MentatdConfig :=
  ⟨⟨.new capacity ttl, []⟩, ⟨db, []⟩, []⟩

def Acknowledged (finished : Arrival → Outcome → Prop) (n : Nat) : Prop :=
  ∃ arrival outcome, finished arrival outcome ∧ outcome.commit = some n

/-- Answers are covered by their dependencies. A transaction leaves schema and idents alone, and
its report is read back as the value it spells. -/
def CoveredStmt (ext : Extension) (x : DbStmt) (w : Timeline) : Prop :=
  match x with
  | .query text inputs => Covered (ext.query text inputs) extractResultEntities w.db
  | .transact call => ∀ report db', mentatTransact call w.db = .ok (report, db') →
    db'.cache = w.db.cache ∧ ∃ spelled, ext.readReport report = some (report.json spelled)

/-- No answer is stored after a transaction that touches it has begun to invalidate, and the
transactions invalidate in the order of their commits. -/
def InOrderOp (o : CacheOp) (c : SharedCache) (w : Timeline) : Prop :=
  match o with
  | .get _ _ => True
  | .insert _ _ _ deps readAt => w.UnmarkedSince c.invalidated readAt deps
  | .invalidate _ n => Timeline.AllMarked c.invalidated (n - 1)

/-- Only `:q` and `:transact` arrive. -/
def mentatdDiscipline (ext : Extension) (enter : CacheOp → SharedCache → Timeline → Prop) :
    Discipline CacheOp.Reply DbStmt.Reply SharedCache Timeline Arrival Outcome where
  arrive arrival p finished :=
    p = arrival.request.handle ext ∧ (arrival.floor = 0 ∨ Acknowledged finished arrival.floor)
  enter _ o c w := enter o c w
  issue _ x w := CoveredStmt ext x w
  arrive_mono := by
    intro arrival p finished finished' hmono h
    refine ⟨h.1, h.2.imp_right fun ⟨a, outcome, hfinished, hcommit⟩ => ?_⟩
    exact ⟨a, outcome, hmono a outcome hfinished, hcommit⟩

/-- The response is the answer on a state that the transaction with this number belongs to. -/
def AnsweredSince (ext : Extension) (w : Timeline) (q : QueryRequest) (floor : Nat)
    (response : Response) : Prop :=
  ∃ m, floor ≤ m ∧ m ≤ w.commits.length ∧ response =
    Mentatd.freshAnswer (ext.query q.text q.inputs (w.after m)) (Mentatd.respondQuery ext)

def MentatdConfig.NeverOlder (ext : Extension) (c : MentatdConfig) : Prop :=
  ∀ q floor outcome, c.Finished ⟨.query q, floor⟩ outcome →
    AnsweredSince ext c.world q floor outcome.response

/-- The points of a handler between its operations, and what is known there. -/
inductive Stage (ext : Extension) (w : Timeline) (done : List Nat) (floor : Nat) :
    MentatdRequest → MentatdHandler → Prop
  | looking (q : QueryRequest) : Stage ext w done floor (.query q) (q.handle ext)
  | missed (q : QueryRequest) : Stage ext w done floor (.query q) (q.compute ext)
  | storing (q : QueryRequest) {json : JsonValue} {n : Nat} (hfloor : floor ≤ n)
      (hn : n ≤ w.commits.length)
      (hcompute : ext.query q.text q.inputs (w.after n) = .ok json)
      (hcovered : Covered (ext.query q.text q.inputs) extractResultEntities (w.after n)) :
      Stage ext w done floor (.query q) (q.store ext json n)
  | answered (q : QueryRequest) {response : Response}
      (h : AnsweredSince ext w q floor response) :
      Stage ext w done floor (.query q) (.ret ⟨response, none⟩)
  | committing (call : Call) : Stage ext w done floor (.transact call) (handleTransact ext call)
  | failed (call : Call) (e : ServerError) :
      Stage ext w done floor (.transact call) (.ret ⟨.error e, none⟩)
  | acknowledging (call : Call) {i : Nat} {commit : Commit} (spelled : F64 → JsonValue)
      (hcommit : w.commits[i]? = some commit) :
      Stage ext w done floor (.transact call)
        (acknowledge ext (commit.report.json spelled) (i + 1))
  | acknowledged (call : Call) (response : Response) {n : Nat} (hn : n ≤ w.commits.length)
      (hmarked : Timeline.AllMarked done n) :
      Stage ext w done floor (.transact call) (.ret ⟨response, some n⟩)

section Stages

variable {ext : Extension} {w w' : Timeline} {done done' : List Nat} {floor n : Nat}
  {request : MentatdRequest} {p : MentatdHandler} {q : QueryRequest} {response : Response}

theorem AnsweredSince.mono (h : AnsweredSince ext w q floor response) (hw : w.Grows w') :
    AnsweredSince ext w' q floor response := by
  obtain ⟨m, hfloor, hm, heq⟩ := h
  refine ⟨m, hfloor, hm.trans hw.length_le, ?_⟩
  rw [hw.after hm, heq]

theorem Timeline.AllMarked.mono (h : Timeline.AllMarked done n) (hdone : done ⊆ done') :
    Timeline.AllMarked done' n :=
  fun i hi => hdone (h i hi)

theorem Stage.mono (h : Stage ext w done floor request p) (hw : w.Grows w') (hdone : done ⊆ done') :
    Stage ext w' done' floor request p := by
  cases h with
  | looking => exact .looking _
  | missed => exact .missed _
  | storing _ hfloor hn hcompute hcovered =>
    rw [← hw.after hn] at hcompute hcovered
    exact .storing _ hfloor (hn.trans hw.length_le) hcompute hcovered
  | answered _ h => exact .answered _ (h.mono hw)
  | committing => exact .committing _
  | failed => exact .failed _ _
  | acknowledging _ spelled hcommit => exact .acknowledging _ spelled (hw.getElem? hcommit)
  | acknowledged _ _ hn hmarked =>
    exact .acknowledged _ _ (hn.trans hw.length_le) (hmarked.mono hdone)

theorem Stage.marked_of_ret {outcome : Outcome}
    (h : Stage ext w done floor request (.ret outcome)) (hcommit : outcome.commit = some n) :
    n ≤ w.commits.length ∧ Timeline.AllMarked done n := by
  generalize hp : Program.ret outcome = p at h
  cases h with
  | answered | failed => cases hp; cases hcommit
  | acknowledged _ _ hn hmarked => cases hp; cases hcommit; exact ⟨hn, hmarked⟩
  | looking | missed | storing | committing | acknowledging => cases hp

end Stages

/-- The state that an answer was read from: later transactions that touch the answer have not yet
begun to invalidate. -/
structure ReadFrom (w : Timeline) (done : List Nat) (compute : Db → Except QueryError JsonValue)
    (json : JsonValue) (deps : List Int64) (j : Nat) : Prop where
  le : j ≤ w.commits.length
  computed : compute (w.after j) = .ok json
  covered : deps ≠ [] → ∀ db', Db.AgreeOn deps (w.after j) db' → compute db' = .ok json
  unmarked : w.UnmarkedSince done j deps

/-- Entries of the cache are answers on states that no finished invalidation has overtaken, and
every handler is at a point of its program. -/
structure MentatdAtomic.Fresh (ext : Extension) (c : MentatdAtomic) : Prop where
  consistent : c.object.cache.Consistent
  marked : ∀ n ∈ c.object.invalidated, n ≤ c.world.commits.length
  framed : c.world.Framed
  entries : ∀ {key compute json deps}, ext.Computes key compute →
    c.object.cache.Holds key json deps →
    ∃ j, ReadFrom c.world c.object.invalidated compute json deps j
  handlers : ∀ h ∈ c.handlers, h.1.floor ≤ c.world.commits.length ∧
    Timeline.AllMarked c.object.invalidated h.1.floor ∧
    Stage ext c.world c.object.invalidated h.1.floor h.1.request h.2

section Fresh

variable {ext : Extension} {c : MentatdAtomic} {i : Nat} {arrival : Arrival} {p : MentatdHandler}
  {w w' : Timeline} {done done' : List Nat} {floor : Nat}
  {compute : Db → Except QueryError JsonValue} {json : JsonValue} {deps : List Int64} {j : Nat}

theorem ReadFrom.since (h : ReadFrom w done compute json deps j) (hframed : w.Framed)
    (hfloor : floor ≤ w.commits.length) (hmarked : Timeline.AllMarked done floor) :
    ∃ m, floor ≤ m ∧ m ≤ w.commits.length ∧ compute (w.after m) = .ok json := by
  by_cases hle : floor ≤ j
  · exact ⟨j, hle, h.le, h.computed⟩
  · have huntouched : ∀ (i : Nat) (commit : Commit), j ≤ i → i < floor →
        w.commits[i]? = some commit → ¬ commit.Touches deps := by
      intro i commit hj hi hget htouches
      exact h.unmarked i commit hj hget htouches (hmarked i hi)
    have hdeps : deps ≠ [] := by
      intro hnil
      have hlt : j < w.commits.length := by omega
      exact huntouched j _ (le_refl j) (by omega) (List.getElem?_eq_getElem hlt) (.inl hnil)
    have hsum : j + (floor - j) = floor := by omega
    have hagree : Db.AgreeOn deps (w.after j) (w.after (j + (floor - j))) :=
      hframed.agreeOn (floor - j) (by omega) fun i commit hj hi =>
        huntouched i commit hj (by omega)
    rw [hsum] at hagree
    exact ⟨floor, le_refl floor, hfloor, h.covered hdeps _ hagree⟩

theorem ReadFrom.mono (h : ReadFrom w done compute json deps j) (hw : w.Grows w')
    (hunmarked : w'.UnmarkedSince done' j deps) : ReadFrom w' done' compute json deps j := by
  refine ⟨h.le.trans hw.length_le, ?_, ?_, hunmarked⟩
  · rw [hw.after h.le]
    exact h.computed
  · rw [hw.after h.le]
    exact h.covered

theorem MentatdAtomic.Fresh.set (h : c.Fresh ext) (hget : c.handlers[i]? = some (arrival, p))
    {object : SharedCache} {world : Timeline} {p' : MentatdHandler}
    (hw : c.world.Grows world) (hdone : c.object.invalidated ⊆ object.invalidated)
    (hstage : Stage ext world object.invalidated arrival.floor arrival.request p') :
    ∀ x ∈ c.handlers.set i (arrival, p'), x.1.floor ≤ world.commits.length ∧
      Timeline.AllMarked object.invalidated x.1.floor ∧
      Stage ext world object.invalidated x.1.floor x.1.request x.2 := by
  intro x hx
  have hcases := mem_or_eq_of_mem_set hx
  rcases hcases with hx | rfl
  · obtain ⟨hfloor, hmarked, hold⟩ := h.handlers x hx
    exact ⟨hfloor.trans hw.length_le, hmarked.mono hdone, hold.mono hw hdone⟩
  · obtain ⟨hfloor, hmarked, -⟩ := h.handlers _ (mem_of_getElem? hget)
    exact ⟨hfloor.trans hw.length_le, hmarked.mono hdone, hstage⟩

theorem MentatdAtomic.Fresh.arrive (h : c.Fresh ext)
    {enter : CacheOp → SharedCache → Timeline → Prop}
    (hok : (mentatdDiscipline ext enter).arrive arrival p c.Finished) :
    MentatdAtomic.Fresh ext { c with handlers := c.handlers ++ [(arrival, p)] } := by
  obtain ⟨rfl, hfloor⟩ := hok
  refine ⟨h.consistent, h.marked, h.framed, h.entries, ?_⟩
  intro x hx
  rcases mem_append.mp hx with hx | hx
  · exact h.handlers x hx
  · rw [mem_singleton.mp hx]
    have hknown : arrival.floor ≤ c.world.commits.length ∧
        Timeline.AllMarked c.object.invalidated arrival.floor := by
      rcases hfloor with hzero | ⟨first, outcome, hfinished, hcommit⟩
      · rw [hzero]
        exact ⟨Nat.zero_le _, fun i hi => absurd hi (Nat.not_lt_zero i)⟩
      · exact (h.handlers _ hfinished).2.2.marked_of_ret hcommit
    refine ⟨hknown.1, hknown.2, ?_⟩
    cases arrival with
    | mk request floor =>
      cases request with
      | query q => exact .looking q
      | transact call => exact .committing call

variable {q : QueryRequest} {call : Call} {report : TxReport} {db' : Db}

theorem MentatdAtomic.Fresh.get (h : c.Fresh ext)
    (hget : c.handlers[i]? = some (⟨.query q, floor⟩, q.handle ext)) :
    MentatdAtomic.Fresh ext ⟨⟨(c.object.cache.get q.lookupAt q.key).2, c.object.invalidated⟩,
      c.world, c.handlers.set i (⟨.query q, floor⟩,
        match (c.object.cache.get q.lookupAt q.key).1 with
        | some json => .ret ⟨Mentatd.respondQuery ext json, none⟩
        | none => q.compute ext)⟩ := by
  refine ⟨get_consistent h.consistent _, h.marked, h.framed, ?_, ?_⟩
  · intro key compute json deps hcomputes hholds
    exact h.entries hcomputes hholds.of_get
  · apply h.set hget (.refl _) fun _ hx => hx
    cases hhit : (c.object.cache.get q.lookupAt q.key).1 with
    | none => exact .missed q
    | some json =>
      -- the entry was read from an older state, on which the floor's transactions left it alone
      obtain ⟨deps, hholds⟩ := holds_of_get h.consistent hhit
      obtain ⟨j, hread⟩ := h.entries (.query q.text q.args q.basis) hholds
      obtain ⟨hfloor, hmarked, -⟩ := h.handlers _ (mem_of_getElem? hget)
      obtain ⟨m, hm, hlen, hcomputed⟩ := hread.since h.framed hfloor hmarked
      have hquery : ext.query q.text q.inputs (c.world.after m) = .ok json := hcomputed
      refine .answered q ⟨m, hm, hlen, ?_⟩
      rw [hquery, Mentatd.freshAnswer]

theorem MentatdAtomic.Fresh.insert (h : c.Fresh ext) {n : Nat}
    (hget : c.handlers[i]? = some (⟨.query q, floor⟩, q.store ext json n)) (hfloor : floor ≤ n)
    (hn : n ≤ c.world.commits.length)
    (hcompute : ext.query q.text q.inputs (c.world.after n) = .ok json)
    (hcovered : Covered (ext.query q.text q.inputs) extractResultEntities (c.world.after n))
    (hunmarked : c.world.UnmarkedSince c.object.invalidated n (extractResultEntities json)) :
    MentatdAtomic.Fresh ext
      ⟨⟨c.object.cache.insertWithDeps q.insertAt q.key json (extractResultEntities json),
        c.object.invalidated⟩, c.world,
        c.handlers.set i (⟨.query q, floor⟩, .ret ⟨Mentatd.respondQuery ext json, none⟩)⟩ := by
  refine ⟨insertWithDeps_consistent h.consistent _ _ _, h.marked, h.framed, ?_, ?_⟩
  · intro key compute json' deps hcomputes hholds
    rcases hholds.of_insertWithDeps h.consistent with ⟨rfl, rfl, rfl⟩ | hold
    · rw [hcomputes.unique (.query q.text q.args q.basis)]
      exact ⟨n, hn, hcompute, hcovered _ hcompute, hunmarked⟩
    · exact h.entries hcomputes hold
  · apply h.set hget (.refl _) fun _ hx => hx
    refine .answered q ⟨n, hfloor, hn, ?_⟩
    rw [hcompute, Mentatd.freshAnswer]

theorem MentatdAtomic.Fresh.invalidate (h : c.Fresh ext) {t : Nat} {commit : Commit}
    {spelled : F64 → JsonValue}
    (hget : c.handlers[i]? = some (⟨.transact call, floor⟩,
      acknowledge ext (commit.report.json spelled) (t + 1)))
    (hcommit : c.world.commits[t]? = some commit)
    (hmarked : Timeline.AllMarked c.object.invalidated t) :
    MentatdAtomic.Fresh ext
      ⟨⟨Mentatd.invalidateChanged c.object.cache
          (extractChangedEntities (commit.report.json spelled)),
        (t + 1) :: c.object.invalidated⟩, c.world,
        c.handlers.set i (⟨.transact call, floor⟩,
          .ret ⟨.ok (txReportResponse ext.floats (commit.report.json spelled)),
            some (t + 1)⟩)⟩ := by
  have hlt : t < c.world.commits.length := (List.getElem?_eq_some_iff.mp hcommit).1
  obtain ⟨hrows, -⟩ := h.framed t commit hcommit
  obtain ⟨r, hr⟩ := exists_mem_of_ne_nil _ hrows
  have hne : extractChangedEntities (commit.report.json spelled) ≠ [] :=
    ne_nil_of_mem (mem_extractChangedEntities.mpr ⟨r, hr, rfl⟩)
  rw [Mentatd.invalidateChanged, if_neg hne]
  refine ⟨invalidateEntities_consistent h.consistent _, ?_, h.framed, ?_, ?_⟩
  · intro n hn
    rcases mem_cons.mp hn with rfl | hn
    · exact hlt
    · exact h.marked n hn
  · intro key compute json deps hcomputes hholds
    obtain ⟨hold, hdeps, hdisjoint⟩ := hholds.of_invalidateEntities h.consistent hne
    obtain ⟨j, hread⟩ := h.entries hcomputes hold
    refine ⟨j, hread.mono (.refl _) fun k commit' hj hk htouches hmem => ?_⟩
    rcases mem_cons.mp hmem with heq | hmem
    · -- an entry that this transaction touches was dropped
      have hkt : k = t := by omega
      rw [hkt, hcommit] at hk
      cases hk
      rcases htouches with hnil | ⟨row, hrow, hmem⟩
      · exact hdeps hnil
      · exact hdisjoint row.e hmem (mem_extractChangedEntities.mpr ⟨row, hrow, rfl⟩)
    · exact hread.unmarked k commit' hj hk htouches hmem
  · apply h.set hget (.refl _) fun _ hx => mem_cons_of_mem _ hx
    refine .acknowledged call _ hlt fun k hk => ?_
    by_cases hkt : k = t
    · exact hkt ▸ mem_cons_self
    · exact mem_cons_of_mem _ (hmarked k (by omega))

theorem MentatdAtomic.Fresh.query (h : c.Fresh ext)
    (hget : c.handlers[i]? = some (⟨.query q, floor⟩, q.compute ext))
    (hcovered : Covered (ext.query q.text q.inputs) extractResultEntities c.world.db) :
    MentatdAtomic.Fresh ext ⟨c.object, c.world, c.handlers.set i (⟨.query q, floor⟩,
      match ext.query q.text q.inputs c.world.db with
      | .error e => .ret ⟨.error (.query e), none⟩
      | .ok json => q.store ext json c.world.commits.length)⟩ := by
  refine ⟨h.consistent, h.marked, h.framed, h.entries, ?_⟩
  obtain ⟨hfloor, -, -⟩ := h.handlers _ (mem_of_getElem? hget)
  apply h.set hget (.refl _) fun _ hx => hx
  cases hquery : ext.query q.text q.inputs c.world.db with
  | error e =>
    refine .answered q ⟨c.world.commits.length, hfloor, le_refl _, ?_⟩
    have hafter : ext.query q.text q.inputs (c.world.after c.world.commits.length) = .error e :=
      hquery
    rw [hafter, Mentatd.freshAnswer]
  | ok json => exact .storing q hfloor (le_refl _) hquery hcovered

theorem Timeline.Framed.append (h : w.Framed) (hcall : mentatTransact call w.db = .ok (report, db'))
    (hcache : db'.cache = w.db.cache) :
    Timeline.Framed { w with commits := w.commits ++ [⟨report, db'⟩] } := by
  have hgrows := w.grows_append ⟨report, db'⟩
  intro t commit hcommit
  by_cases ht : t < w.commits.length
  · rw [hgrows.after (show t + 1 ≤ _ from ht), hgrows.after ht.le]
    rw [List.getElem?_append_left ht] at hcommit
    exact h t commit hcommit
  · have hlt := (List.getElem?_eq_some_iff.mp hcommit).1
    rw [length_append, length_singleton] at hlt
    have hlast : t = w.commits.length := by omega
    subst hlast
    rw [List.getElem?_concat_length] at hcommit
    cases hcommit
    rw [w.after_length_append, hgrows.after (le_refl _)]
    refine ⟨mentatTransact_txData_ne_nil hcall, fun deps huntouched => ?_⟩
    refine mentatTransact_agreeOn hcall hcache fun r hr hmem => ?_
    exact huntouched (.inr ⟨r, hr, hmem⟩)

theorem MentatdAtomic.Fresh.commit (h : c.Fresh ext) (spelled : F64 → JsonValue)
    (hget : c.handlers[i]? = some (⟨.transact call, floor⟩, handleTransact ext call))
    (hcall : mentatTransact call c.world.db = .ok (report, db'))
    (hcache : db'.cache = c.world.db.cache) :
    MentatdAtomic.Fresh ext
      ⟨c.object, { c.world with commits := c.world.commits ++ [⟨report, db'⟩] },
        c.handlers.set i (⟨.transact call, floor⟩,
          acknowledge ext (report.json spelled) (c.world.commits.length + 1))⟩ := by
  have hgrows := c.world.grows_append ⟨report, db'⟩
  have hlast : ({ c.world with commits := c.world.commits ++ [⟨report, db'⟩] } :
      Timeline).commits[c.world.commits.length]? = some ⟨report, db'⟩ := List.getElem?_concat_length
  refine ⟨h.consistent, fun n hn => (h.marked n hn).trans hgrows.length_le,
    h.framed.append hcall hcache, ?_, ?_⟩
  · intro key compute json deps hcomputes hholds
    obtain ⟨j, hread⟩ := h.entries hcomputes hholds
    refine ⟨j, hread.mono hgrows fun t commit hj ht htouches hmem => ?_⟩
    -- the new transaction has not invalidated yet
    have hlt : t < c.world.commits.length := h.marked (t + 1) hmem
    rw [List.getElem?_append_left hlt] at ht
    exact hread.unmarked t commit hj ht htouches hmem
  · apply h.set hget hgrows fun _ hx => hx
    exact .acknowledging call spelled hlast

theorem MentatdAtomic.Fresh.operate (h : c.Fresh ext) {o : CacheOp}
    {k : o.Reply → MentatdHandler}
    (hget : c.handlers[i]? = some (arrival, .call (.inl o) k))
    (hok : InOrderOp o c.object c.world) :
    MentatdAtomic.Fresh ext
      ⟨((mentatdProtocol ext).alone ((mentatdProtocol ext).body o) c.object).2, c.world,
        c.handlers.set i (arrival,
          k ((mentatdProtocol ext).alone ((mentatdProtocol ext).body o) c.object).1)⟩ := by
  obtain ⟨-, -, hstage⟩ := h.handlers _ (mem_of_getElem? hget)
  obtain ⟨request, floor⟩ := arrival
  generalize hp : (Program.call (Sum.inl o) k : MentatdHandler) = p at hget hstage
  cases hstage with
  | looking q =>
    cases hp
    have hnext := h.get hget
    rw [alone_get ext c.object.cache c.object.invalidated]
    cases hhit : (c.object.cache.get q.lookupAt q.key).1 with
    | none =>
      rw [hhit] at hnext
      exact hnext
    | some json =>
      rw [hhit] at hnext
      exact hnext
  | storing q hfloor hn hcompute hcovered =>
    cases hp
    rw [alone_insert ext c.object.cache c.object.invalidated]
    exact h.insert hget hfloor hn hcompute hcovered hok
  | acknowledging call spelled hcommit =>
    cases hp
    rw [alone_invalidate ext c.object.cache c.object.invalidated]
    exact h.invalidate hget hcommit hok
  | missed | answered | committing | failed | acknowledged => cases hp

theorem MentatdAtomic.Fresh.issue (h : c.Fresh ext) {x : DbStmt} {k : x.Reply → MentatdHandler}
    (hget : c.handlers[i]? = some (arrival, .call (.inr x) k)) (hok : CoveredStmt ext x c.world) :
    MentatdAtomic.Fresh ext ⟨c.object, ((mentatdProtocol ext).answer x c.world).2,
      c.handlers.set i (arrival, k ((mentatdProtocol ext).answer x c.world).1)⟩ := by
  obtain ⟨-, -, hstage⟩ := h.handlers _ (mem_of_getElem? hget)
  obtain ⟨request, floor⟩ := arrival
  generalize hp : (Program.call (Sum.inr x) k : MentatdHandler) = p at hget hstage
  cases hstage with
  | missed q =>
    cases hp
    have hnext := h.query hget hok
    simp only [mentatdProtocol, Timeline.answer]
    cases hquery : ext.query q.text q.inputs c.world.db with
    | error e =>
      rw [hquery] at hnext
      exact hnext
    | ok json =>
      rw [hquery] at hnext
      exact hnext
  | committing call =>
    cases hp
    simp only [mentatdProtocol, Timeline.answer]
    cases hcall : mentatTransact call c.world.db with
    | error e =>
      refine ⟨h.consistent, h.marked, h.framed, h.entries, ?_⟩
      exact h.set hget (.refl _) (fun _ hx => hx) (.failed call _)
    | ok result =>
      obtain ⟨report, db'⟩ := result
      obtain ⟨hcache, spelled, hread⟩ := hok report db' hcall
      simp only [Program.bind, hread]
      exact h.commit spelled hget hcall hcache
  | looking | storing | answered | failed | acknowledging | acknowledged => cases hp

end Fresh

theorem MentatdAtomic.fresh_start (ext : Extension) (capacity ttl : Nat) (db : Db) :
    MentatdAtomic.Fresh ext ⟨⟨.new capacity ttl, []⟩, ⟨db, []⟩, []⟩ where
  consistent := new_consistent capacity ttl
  marked := fun n hn => nomatch hn
  framed := fun i commit hi => by simp at hi
  entries := fun _ hholds => absurd hholds not_holds_new
  handlers := fun x hx => nomatch hx

theorem AtomicRun.fresh {ext : Extension} {start c : MentatdAtomic} (hstart : start.Fresh ext)
    (hrun : AtomicRun (mentatdProtocol ext) (mentatdDiscipline ext InOrderOp) start c) :
    c.Fresh ext := by
  induction hrun with
  | refl => exact hstart
  | arrive _ tag p hok ih => exact ih.arrive hok
  | operate _ hget hok ih => exact ih.operate hget hok
  | issue _ hget hok ih => exact ih.issue hget hok

section Overtaken

variable {ext : Extension} {db db' : Db} {call : Call} {report : TxReport}
  {spelled : F64 → JsonValue} {json : JsonValue} {q r : QueryRequest}

theorem keysToRemove_new (capacity ttl : Nat) (entities : List Int64) :
    (new capacity ttl : QueryCache JsonValue).keysToRemove entities = [] := by
  have hbuckets : (untrackedSentinel :: entities).flatMap
      (Multimap.bucket (new capacity ttl : QueryCache JsonValue).entityToKeys) = [] :=
    flatMap_eq_nil_iff.mpr fun _ _ => rfl
  rw [keysToRemove, hbuckets]
  rfl

theorem invalidateChanged_new (capacity ttl : Nat) (entities : List Int64) :
    Mentatd.invalidateChanged (.new capacity ttl) entities = .new capacity ttl := by
  unfold Mentatd.invalidateChanged invalidateEntities
  rw [keysToRemove_new]
  split
  · rfl
  · split <;> rfl

theorem get_insertWithDeps_new (key : CacheKey) (deps : List Int64) {now now' : Nat}
    (htime : now' - now ≤ 60) :
    ((insertWithDeps (.new 1000 60) now key json deps).get now' key).1 = some json := by
  have hfound : QueryCache.entry? (insertWithDeps (.new 1000 60) now key json deps) key =
      some ⟨key, json, now⟩ := by
    simp [insertWithDeps, new, removeReverseIndexForKey, addDepsForKey, entry?, KeyedTable.put,
      KeyedTable.del]
  have hlimit : (insertWithDeps (.new 1000 60) now key json deps).ttl = 60 := rfl
  have hon : (insertWithDeps (.new 1000 60) now key json deps).enabled = true := rfl
  rw [QueryCache.get, if_pos hon, hfound]
  simp only [hlimit]
  rw [if_neg (by omega)]

/-- A run in which nothing is asked of the order of the operations on the cache. -/
abbrev UnorderedRun (ext : Extension) (db : Db) (c : MentatdConfig) : Prop :=
  Run (mentatdProtocol ext) (mentatdDiscipline ext fun _ _ _ => True)
    (MentatdConfig.start 1000 60 db) c

theorem allIdle_of_all {c : MentatdConfig} (h : (c.handlers.all fun h => h.2.isIdle) = true) :
    c.AllIdle :=
  all_eq_true.mp h

section Steps

variable {opOk : CacheOp → SharedCache → Timeline → Prop} {start : MentatdConfig}
  {object : SharedCache} {w : Timeline} {i : Nat} {arrival : Arrival}
  {handlers : List (Arrival × Activity CacheSection CacheSection.Reply CacheOp.Reply DbStmt.Reply
    Outcome)}

theorem run_query
    (h : Run (mentatdProtocol ext) (mentatdDiscipline ext opOk) start ⟨object, w, handlers⟩)
    (hget : handlers[i]? = some (arrival, .idle (q.compute ext)))
    (hcovered : Covered (ext.query q.text q.inputs) extractResultEntities w.db)
    (hquery : ext.query q.text q.inputs w.db = .ok json) :
    Run (mentatdProtocol ext) (mentatdDiscipline ext opOk) start
      ⟨object, w, handlers.set i (arrival, .idle (q.store ext json w.commits.length))⟩ := by
  have hok : CoveredStmt ext (.query q.text q.inputs) w := hcovered
  have hnext := h.statement hget hok
  simp only [mentatdProtocol, Timeline.answer, hquery] at hnext
  exact hnext

theorem run_commit
    (h : Run (mentatdProtocol ext) (mentatdDiscipline ext opOk) start ⟨object, w, handlers⟩)
    (hget : handlers[i]? = some (arrival, .idle (handleTransact ext call)))
    (hcall : mentatTransact call w.db = .ok (report, db')) (hcache : db'.cache = w.db.cache)
    (hread : ext.readReport report = some (report.json spelled)) :
    Run (mentatdProtocol ext) (mentatdDiscipline ext opOk) start
      ⟨object, { w with commits := w.commits ++ [⟨report, db'⟩] },
        handlers.set i (arrival, .idle
          (acknowledge ext (report.json spelled) (w.commits.length + 1)))⟩ := by
  have hok : CoveredStmt ext (.transact call) w := by
    intro report' db'' hcall'
    cases hcall.symm.trans hcall'
    exact ⟨hcache, spelled, hread⟩
  have hnext := h.statement hget hok
  simp only [mentatdProtocol, Timeline.answer, hcall, Program.bind, hread] at hnext
  exact hnext

end Steps

/-- A transaction commits and invalidates after a query has read and before it stores: the next
query is answered as the first. -/
theorem exists_run_overtaken (hcall : mentatTransact call db = .ok (report, db'))
    (hcache : db'.cache = db.cache) (hread : ext.readReport report = some (report.json spelled))
    (hquery : ext.query q.text q.inputs db = .ok json)
    (hcovered : Covered (ext.query q.text q.inputs) extractResultEntities db)
    (hkey : r.key = q.key) (htime : r.lookupAt - q.insertAt ≤ 60) :
    ∃ c, UnorderedRun ext db c ∧ c.world = ⟨db, [⟨report, db'⟩]⟩ ∧
      c.Finished ⟨.query r, 1⟩ ⟨Mentatd.respondQuery ext json, none⟩ := by
  have hfirst : UnorderedRun ext db ⟨⟨.new 1000 60, []⟩, ⟨db, []⟩,
      [(⟨.query q, 0⟩, .idle (q.handle ext))]⟩ :=
    Run.refl.arrive _ _ ⟨rfl, .inl rfl⟩
  have hmissed : UnorderedRun ext db ⟨⟨.new 1000 60, []⟩, ⟨db, []⟩,
      [(⟨.query q, 0⟩, .idle (q.compute ext))]⟩ :=
    hfirst.operation (i := 0) (allIdle_of_all rfl) rfl trivial
  have hcomputed := run_query hmissed (i := 0) rfl hcovered hquery
  have hsecond := hcomputed.arrive ⟨.transact call, 0⟩ (handleTransact ext call) ⟨rfl, .inl rfl⟩
  have hcommitted := run_commit hsecond (i := 1) rfl hcall hcache hread
  have hinvalidated := hcommitted.operation (i := 1) (allIdle_of_all rfl) rfl trivial
  rw [alone_invalidate, invalidateChanged_new] at hinvalidated
  have hstored := hinvalidated.operation (i := 0) (allIdle_of_all rfl) rfl trivial
  rw [alone_insert] at hstored
  have hthird := hstored.arrive ⟨.query r, 1⟩ (r.handle ext) ⟨rfl, .inr ⟨⟨.transact call, 0⟩, _,
    mem_cons_of_mem _ mem_cons_self, rfl⟩⟩
  have hfinal := hthird.operation (i := 2) (allIdle_of_all rfl) rfl trivial
  rw [Config.arrive, alone_get, hkey, get_insertWithDeps_new _ _ htime] at hfinal
  exact ⟨_, hfinal, rfl, mem_of_getElem? (i := 2) rfl⟩

theorem exists_run_acknowledged (hcall : mentatTransact call db = .ok (report, db'))
    (hcache : db'.cache = db.cache) (hread : ext.readReport report = some (report.json spelled))
    (hquery : ext.query q.text q.inputs db' = .ok json)
    (hcovered : Covered (ext.query q.text q.inputs) extractResultEntities db') :
    ∃ c, Run (mentatdProtocol ext) (mentatdDiscipline ext InOrderOp)
        (MentatdConfig.start 1000 60 db) c ∧
      c.Finished ⟨.query q, 1⟩ ⟨Mentatd.respondQuery ext json, none⟩ := by
  have hfirst : Run (mentatdProtocol ext) (mentatdDiscipline ext InOrderOp)
      (MentatdConfig.start 1000 60 db)
      ⟨⟨.new 1000 60, []⟩, ⟨db, []⟩, [(⟨.transact call, 0⟩, .idle (handleTransact ext call))]⟩ :=
    Run.refl.arrive _ _ ⟨rfl, .inl rfl⟩
  have hcommitted := run_commit hfirst (i := 0) rfl hcall hcache hread
  have hinvalidated := hcommitted.operation (i := 0) (allIdle_of_all rfl) rfl
    fun i hi => absurd hi (Nat.not_lt_zero i)
  rw [alone_invalidate, invalidateChanged_new] at hinvalidated
  have hsecond := hinvalidated.arrive ⟨.query q, 1⟩ (q.handle ext)
    ⟨rfl, .inr ⟨⟨.transact call, 0⟩, _, mem_cons_self, rfl⟩⟩
  have hmissed := hsecond.operation (i := 1) (allIdle_of_all rfl) rfl trivial
  have hcomputed := run_query hmissed (i := 1) rfl hcovered hquery
  have hok : InOrderOp (.insert q.insertAt q.key json (extractResultEntities json) 1)
      ⟨.new 1000 60, [1]⟩ ⟨db, [⟨report, db'⟩]⟩ := by
    intro i commit hi hget
    have hlt : i < 1 := (List.getElem?_eq_some_iff.mp hget).1
    omega
  have hfinal := hcomputed.operation (i := 1) (allIdle_of_all rfl) rfl hok
  exact ⟨_, hfinal, mem_of_getElem? (i := 1) rfl⟩

end Overtaken

def describeFirst : Call := addDoc 1000000000001 500 "first"

def undescribeFirst : Call :=
  plainCall 1000000000002 1735689600000000 [retractDatom 500 Entids.dbDoc (.text "first")]

def askDoc (lookupAt insertAt : Nat) : QueryRequest := ⟨"doc", [], none, lookupAt, insertAt⟩

/-- If the operations on the cache do not overlap, no answer is stored after a transaction that
touches it has begun to invalidate, transactions invalidate in the order of their commits, leave
the schema alone and have readable reports, then no query is answered from a state older than a
transaction acknowledged before it started. -/
theorem neverOlder_of_inOrder (ext : Extension) (capacity ttl : Nat) (db : Db) {c : MentatdConfig}
    (hrun : Run (mentatdProtocol ext) (mentatdDiscipline ext InOrderOp)
      (MentatdConfig.start capacity ttl db) c) : c.NeverOlder ext := by
  have hidle : (MentatdConfig.start capacity ttl db).AllIdle := fun h hh => by cases hh
  obtain ⟨-, hatomic⟩ := Run.atomic hidle hrun
  have hfresh := AtomicRun.fresh (MentatdAtomic.fresh_start ext capacity ttl db) hatomic
  intro q floor outcome hfinished
  obtain ⟨-, -, hstage⟩ := hfresh.handlers _ hfinished.settled
  generalize hp : Program.ret outcome = p at hstage
  generalize hrequest : MentatdRequest.query q = request at hstage
  cases hstage with
  | answered q' hanswered =>
    cases hp
    cases hrequest
    exact hanswered
  | failed | acknowledged => cases hrequest
  | looking | missed | storing | committing | acknowledging => cases hp

/-- The doc of entity 500 is added, acknowledged and asked for. -/
theorem neverOlder_of_inOrder_doc : ∃ c, Run (mentatdProtocol docExtension)
      (mentatdDiscipline docExtension InOrderOp) (MentatdConfig.start 1000 60 bootstrapDb) c ∧
    ∃ outcome, c.Finished ⟨.query (askDoc 1 2), 1⟩ outcome ∧
      AnsweredSince docExtension c.world (askDoc 1 2) 1 outcome.response := by
  have hstates : ∃ report db, mentatTransact describeFirst bootstrapDb = .ok (report, db) ∧
      db.cache = bootstrapDb.cache ∧ DescribedOnce db ∧
      ∃ json, docExtension.query "doc" ⟨[], none⟩ db = .ok json ∧ True := by
    decide +kernel
  obtain ⟨report, db, hcall, hcache, honce, json, hjson, -⟩ := hstates
  obtain ⟨c, hrun, hfinished⟩ :=
    exists_run_acknowledged (q := askDoc 1 2) hcall hcache rfl hjson honce.covered
  exact ⟨c, hrun, _, hfinished,
    neverOlder_of_inOrder docExtension 1000 60 bootstrapDb hrun _ _ _ hfinished⟩

/-- A query reads the doc of entity 500 and stores it after a transaction has taken it away,
invalidated and responded; a later query is answered by what was stored. -/
theorem not_neverOlder_doc :
    ∃ db c, UnorderedRun docExtension db c ∧ ¬ c.NeverOlder docExtension := by
  have hstates : ∃ db, stateAfter [describeFirst] = some db ∧ DescribedOnce db ∧
      ∃ report db', mentatTransact undescribeFirst db = .ok (report, db') ∧ db'.cache = db.cache ∧
      (∃ json, docExtension.query "doc" ⟨[], none⟩ db = .ok json ∧
        (Mentatd.respondQuery docExtension json).rowCount = some 1) ∧
      (Mentatd.freshAnswer (docExtension.query "doc" ⟨[], none⟩ db')
        (Mentatd.respondQuery docExtension)).rowCount = some 0 := by
    decide +kernel
  obtain ⟨db, -, honce, report, db', hcall, hcache, ⟨json, hjson, hold⟩, hnew⟩ := hstates
  obtain ⟨c, hrun, hworld, hfinished⟩ := exists_run_overtaken (q := askDoc 1 4)
    (r := askDoc 5 6) hcall hcache rfl hjson honce.covered rfl (by decide)
  refine ⟨db, c, hrun, fun hnever => ?_⟩
  obtain ⟨m, hone, hm, heq⟩ := hnever _ _ _ hfinished
  rw [hworld] at hm heq
  have hlast : m = 1 := le_antisymm hm hone
  subst hlast
  have hsame := congrArg Response.rowCount heq
  cases hold.symm.trans (hsame.trans hnew)

end PgMentat
