import PgMentat.ComponentExpansion

namespace PgMentat

open List

/-- `pull_many` is `pull` for every entity. -/
def PullsPointwise (display : EdnValue → String) (scan : ScanOrder) (db : Db) (pattern : EdnValue)
    (ids : List Int64) : Prop :=
  mentatPullMany display scan db pattern ids = ids.mapM (mentatPull display scan db pattern)

def AttrSpec.key (attr : AttrSpec) : String := attr.rename.getD attr.forwardIdent

/-- A component that has no components, and no references to attributes. -/
def FlatComponent (scan : ScanOrder) (db : Db) (id : Int64) : Prop :=
  ∀ rows, pullRows scan db id = .ok rows →
    ∀ row ∈ rows, rowValue db.cache row none = plainValue row ∧ row.component = none

/-- What one entity must be like to be pulled in a batch: attributes have no more values than their
limits let through, and components are flat and not the entity itself. -/
structure BatchesEntity (scan : ScanOrder) (db : Db) (attrs : List AttrSpec) (e : Int64) :
    Prop where
  limits : ∀ rows, askedRows scan db attrs e = .ok rows → ∀ row ∈ rows,
    ∀ n ∈ resolveLimit ((specFor attrs row.info.ident).bind AttrSpec.limit),
      (rows.map fun row => row.info.ident).count row.info.ident ≤ n
  components : ∀ rows, askedRows scan db attrs e = .ok rows → ∀ row ∈ rows,
    ∀ id ∈ row.component, id ≠ e ∧ FlatComponent scan db id

/-- Attributes that can be pulled in a batch: they are read forwards, and where there are defaults
every attribute is asked for once and has a key of its own. -/
structure BatchesAttrs (attrs : List AttrSpec) : Prop where
  some : attrs ≠ []
  forward : ∀ attr ∈ attrs, attr.reverse = false
  defaults : (∀ attr ∈ attrs, attr.default.isNone = true) ∨
    (attrs.map fun attr => attr.forwardIdent).Nodup ∧ (attrs.map AttrSpec.key).Nodup ∧
      ":db/id" ∉ attrs.map AttrSpec.key

section Rows

variable {scan : ScanOrder} {db : Db} {attrs : List AttrSpec} {e : Int64}

variable {rows : List PullRow} {m : JsonObject} {key : String}

theorem limitRows_eq_self {taken : List String}
    (h : ∀ row ∈ rows, ∀ n ∈ resolveLimit ((specFor attrs row.info.ident).bind AttrSpec.limit),
      taken.count row.info.ident + (rows.map fun row => row.info.ident).count row.info.ident ≤ n) :
    limitRows attrs taken rows = rows := by
  induction rows generalizing taken with
  | nil => rfl
  | cons row rows ih =>
    have hrow := h row mem_cons_self
    have hlet : (resolveLimit ((specFor attrs row.info.ident).bind AttrSpec.limit)).all
        (fun n => decide (taken.count row.info.ident < n)) = true := by
      rw [Option.all_eq_true]
      intro n hn
      have hcount := hrow n hn
      rw [map_cons, count_cons_self] at hcount
      rw [decide_eq_true_eq]
      omega
    unfold limitRows
    rw [if_pos hlet, ih]
    intro row' hrow' n hn
    have hcount := h row' (mem_cons_of_mem _ hrow') n hn
    rw [map_cons, count_cons] at hcount
    rw [count_cons]
    omega

theorem foldlM_pullRow_flat (below : List Int64 → Int64 → Except String PullState)
    (h : ∀ row ∈ rows, rowValue db.cache row none = plainValue row ∧ row.component = none)
    (st : PullState) :
    rows.foldlM (pullRow db.cache below) st =
      .ok (rows.foldl (fun m row => insertValue m row.info (plainValue row)) st.1, st.2) := by
  induction rows generalizing st with
  | nil => rfl
  | cons row rows ih =>
    obtain ⟨hvalue, hnone⟩ := h row mem_cons_self
    have hrow : pullRow db.cache below st row =
        .ok (insertValue st.1 row.info (plainValue row), st.2) := by
      rw [pullRow_eq .heap]
      unfold TreeExpansion.Graph.visitRow
      have hchild : (pullGraph .heap db).child row = none := hnone
      rw [hchild, ← hvalue]
      rfl
    rw [foldlM_cons, hrow]
    exact ih (fun row h' => h row (mem_cons_of_mem _ h')) _

theorem pullComponent_flat {id : Int64} (h : FlatComponent scan db id) (n : Nat)
    (visited : List Int64) :
    pullComponent scan db (n + 1) visited id =
      (shallowComponent scan db id).map fun sub => (sub, id :: visited) := by
  have hentity (below : List Int64 → Int64 → Except String PullState) :
      pullEntity scan db below (id :: visited) id =
        (shallowComponent scan db id).map fun sub => (sub, id :: visited) := by
    unfold pullEntity shallowComponent
    cases hrows : pullRows scan db id with
    | error err => rfl
    | ok rows => exact foldlM_pullRow_flat below (h rows hrows) _
  cases n with
  | zero | succ n => exact hentity _

theorem foldlM_enterShallow_filter (rows : List PullRow) (m : JsonObject) :
    (rows.filter fun row => row.component.isSome).foldlM (enterShallow scan db) m =
      rows.foldlM (enterShallow scan db) m := by
  induction rows generalizing m with
  | nil => rfl
  | cons row rows ih =>
    cases hcomponent : row.component with
    | none =>
      rw [filter_cons_of_neg (by rw [hcomponent]; decide), foldlM_cons, ih]
      simp only [enterShallow, hcomponent]
      rfl
    | some id =>
      rw [filter_cons_of_pos (by rw [hcomponent]; rfl), foldlM_cons, foldlM_cons]
      exact bind_congr fun m => ih m

theorem foldlM_expandPending_flat (n : Nat)
    (h : ∀ row ∈ rows, ∀ id ∈ row.component, FlatComponent scan db id) (st : PullState) :
    (rows.foldlM (expandPending (pullComponent scan db (n + 1))) st).map Prod.fst =
      rows.foldlM (enterShallow scan db) st.1 := by
  induction rows generalizing st with
  | nil => rfl
  | cons row rows ih =>
    have ih := ih fun row h' => h row (mem_cons_of_mem _ h')
    rw [foldlM_cons, foldlM_cons]
    cases hcomponent : row.component with
    | none =>
      simp only [expandPending, enterShallow, hcomponent]
      exact ih st
    | some id =>
      have hflat := h row mem_cons_self id hcomponent
      simp only [expandPending, enterShallow, hcomponent, pullComponent_flat hflat]
      cases shallowComponent scan db id with
      | error err => rfl
      | ok sub => exact ih (insertValue st.1 row.info (.object sub), id :: st.2)

theorem lookup_insertValue_isSome {info : SchemaRow} {v : JsonValue} :
    ((insertValue m info v).lookup key).isSome ↔
      info.ident = key ∨ (m.lookup key).isSome := by
  refine ⟨fun h => ?_, isSome_lookup_insertValue⟩
  by_cases hkey : info.ident = key
  · exact .inl hkey
  · rw [lookup_insertValue_ne (Ne.symm hkey)] at h
    exact .inr h

theorem lookup_foldl_isSome :
    ((rows.foldl (fun m row => insertValue m row.info (plainValue row)) m).lookup key).isSome ↔
      (∃ row ∈ rows, row.info.ident = key) ∨ (m.lookup key).isSome := by
  induction rows generalizing m with
  | nil => simp
  | cons row rows ih =>
    rw [foldl_cons, ih, lookup_insertValue_isSome]
    simp only [mem_cons, exists_eq_or_imp]
    rw [or_left_comm, or_assoc]

theorem lookup_enterShallow_isSome {m m' : JsonObject}
    (h : rows.foldlM (enterShallow scan db) m = .ok m') :
    (m'.lookup key).isSome ↔
      (∃ row ∈ rows, row.component.isSome ∧ row.info.ident = key) ∨ (m.lookup key).isSome := by
  induction rows generalizing m with
  | nil =>
    cases h
    simp
  | cons row rows ih =>
    rw [foldlM_cons] at h
    obtain ⟨m1, hrow, h⟩ := Unification.bind_eq_ok h
    rw [ih h]
    simp only [mem_cons, exists_eq_or_imp]
    cases hcomponent : row.component with
    | none =>
      simp only [enterShallow, hcomponent] at hrow
      cases hrow
      simp
    | some id =>
      simp only [enterShallow, hcomponent] at hrow
      obtain ⟨sub, -, rfl⟩ := Unification.map_eq_ok hrow
      rw [lookup_insertValue_isSome]
      simp only [Option.isSome_some, true_and]
      rw [or_left_comm, or_assoc]

end Rows

section Defaults

variable {attrs : List AttrSpec}

theorem foldl_default_eq {found : List String} {m : JsonObject}
    (hkeys : (attrs.map AttrSpec.key).Nodup)
    (h : ∀ attr ∈ attrs, (m.lookup attr.key).isSome ↔ attr.forwardIdent ∈ found) :
    attrs.foldl batchDefault m = attrs.foldl (applyDefault found) m := by
  induction attrs generalizing m with
  | nil => rfl
  | cons attr attrs ih =>
    obtain ⟨hnot, hkeys⟩ := nodup_cons.mp hkeys
    have hattr := h attr mem_cons_self
    have hrest : ∀ attr' ∈ attrs, attr'.key ≠ attr.key :=
      fun attr' h' heq => hnot (heq ▸ mem_map.mpr ⟨attr', h', rfl⟩)
    rw [foldl_cons, foldl_cons]
    cases hdefault : attr.default with
    | none =>
      simp only [batchDefault, applyDefault, hdefault]
      exact ih hkeys fun attr' h' => h attr' (mem_cons_of_mem _ h')
    | some d =>
      have hstep : batchDefault m attr = applyDefault found m attr := by
        simp only [batchDefault, applyDefault, hdefault]
        exact if_congr hattr rfl rfl
      rw [hstep]
      apply ih hkeys
      intro attr' h'
      rw [← h attr' (mem_cons_of_mem _ h')]
      simp only [applyDefault, hdefault]
      split
      · rfl
      · have hne : attr'.key ≠ attr.rename.getD attr.forwardIdent := hrest attr' h'
        rw [JsonObject.lookup_insert, if_neg hne]

theorem foldl_default_none {f : JsonObject → AttrSpec → JsonObject} {m : JsonObject}
    (h : ∀ m, ∀ attr ∈ attrs, f m attr = m) : attrs.foldl f m = m := by
  induction attrs with
  | nil => rfl
  | cons attr attrs ih =>
    rw [foldl_cons, h m attr mem_cons_self]
    exact ih fun m attr' h' => h m attr' (mem_cons_of_mem _ h')

theorem specFor_eq_some (hnodup : (attrs.map fun attr => attr.forwardIdent).Nodup)
    {attr : AttrSpec} (hattr : attr ∈ attrs) : specFor attrs attr.forwardIdent = some attr := by
  unfold specFor
  rw [List.findRev?_eq_find?_reverse]
  cases hfind : attrs.reverse.find? fun attr' => attr'.forwardIdent = attr.forwardIdent with
  | none =>
    rw [List.find?_eq_none] at hfind
    exact absurd (by simp) (hfind attr (mem_reverse.mpr hattr))
  | some attr' =>
    have hmem := mem_reverse.mp (mem_of_find?_eq_some hfind)
    have hident := List.find?_some hfind
    rw [decide_eq_true_eq] at hident
    rw [inj_on_of_nodup_map hnodup hmem hattr hident]

end Defaults

section Entity

variable {scan : ScanOrder} {db : Db} {attrs : List AttrSpec} {e : Int64}

theorem ident_renamed (hnodup : (attrs.map fun attr => attr.forwardIdent).Nodup) {row : PullRow}
    {attr : AttrSpec} (hattr : attr ∈ attrs) (hrow : row.info.ident = attr.forwardIdent) :
    (renamed attrs row).info.ident = attr.key := by
  unfold renamed
  rw [hrow, specFor_eq_some hnodup hattr]
  rfl

theorem BatchesAttrs.defaults_eq (h : BatchesAttrs attrs) {rows : List PullRow} {m : JsonObject}
    (hasked : ∀ row ∈ rows, row.info.ident ∈ attrs.map fun attr => attr.forwardIdent)
    (hm : ∀ key, (m.lookup key).isSome ↔
      (∃ row ∈ rows.map (renamed attrs), row.info.ident = key) ∨
        ((idOnly e).lookup key).isSome) :
    attrs.foldl batchDefault m =
      attrs.foldl (applyDefault (rows.map fun row => row.info.ident)) m := by
  rcases h.defaults with hnone | ⟨hidents, hkeys, hid⟩
  · have hdefault : ∀ attr ∈ attrs, attr.default = none :=
      fun attr hattr => Option.isNone_iff_eq_none.mp (hnone attr hattr)
    rw [foldl_default_none fun m attr hattr => ?_, foldl_default_none fun m attr hattr => ?_]
    · simp only [applyDefault, hdefault attr hattr]
    · simp only [batchDefault, hdefault attr hattr]
  · apply foldl_default_eq hkeys
    intro attr hattr
    have hnone : (idOnly e).lookup attr.key = none := by
      have hne : attr.key ≠ ":db/id" := fun heq => hid (heq ▸ mem_map.mpr ⟨attr, hattr, rfl⟩)
      rw [idOnly, JsonObject.lookup_cons, if_neg hne]
      rfl
    rw [hm, hnone]
    constructor
    · rintro (⟨_, hkeyed, hkey⟩ | h)
      · obtain ⟨row, hrow, rfl⟩ := mem_map.mp hkeyed
        obtain ⟨attr', hattr', hident⟩ := mem_map.mp (hasked row hrow)
        rw [ident_renamed hidents hattr' hident.symm] at hkey
        rw [← inj_on_of_nodup_map hkeys hattr' hattr hkey, hident]
        exact mem_map.mpr ⟨row, hrow, rfl⟩
      · cases h
    · intro hfound
      obtain ⟨row, hrow, hident⟩ := mem_map.mp hfound
      exact .inl ⟨renamed attrs row, mem_map.mpr ⟨row, hrow, rfl⟩,
        ident_renamed hidents hattr hident⟩

theorem mem_askedRows {rows : List PullRow} (h : askedRows scan db attrs e = .ok rows) :
    ∀ row ∈ rows, row.info.ident ∈ attrs.map fun attr => attr.forwardIdent := by
  intro row hrow
  obtain ⟨_, -, hret⟩ := Unification.bind_eq_ok h
  cases hret
  simpa using (mem_filter.mp hrow).2

theorem BatchesEntity.batchedEntity_eq (h : BatchesEntity scan db attrs e)
    (hattrs : BatchesAttrs attrs) :
    batchedEntity scan db attrs e = (pullForwardAttributes scan db
      (pullComponent scan db maxRecursionDepth) maxRecursionDepth attrs e (idOnly e, [e])).map
        Prod.fst := by
  unfold batchedEntity pullForwardAttributes
  cases hasked : askedRows scan db attrs e with
  | error err => rfl
  | ok rows =>
    have hlimit : limitRows attrs [] rows = rows := by
      apply limitRows_eq_self
      intro row hrow n hn
      rw [count_nil, Nat.zero_add]
      exact h.limits rows hasked row hrow n hn
    have hkeyed : ∀ row ∈ rows.map (renamed attrs), ∀ id ∈ row.component,
        id ≠ e ∧ FlatComponent scan db id := by
      intro _ hkeyed id hid
      obtain ⟨row, hrow, rfl⟩ := mem_map.mp hkeyed
      exact h.components rows hasked row hrow id hid
    have hwaits : ∀ row ∈ rows.map (renamed attrs),
        (decide (0 < maxRecursionDepth) && row.waits [e]) = row.component.isSome := by
      intro row hrow
      unfold PullRow.waits
      cases hid : row.component with
      | none => rfl
      | some id =>
        have hne := (hkeyed row hrow id hid).1
        simp [hne, maxRecursionDepth]
    have hpending : (rows.map (renamed attrs)).filter
          (fun row => decide (0 < maxRecursionDepth) && row.waits [e]) =
        (rows.map (renamed attrs)).filter fun row => row.component.isSome :=
      filter_congr hwaits
    have hentered : (rows.map (renamed attrs)).filter
          (fun row => !(decide (0 < maxRecursionDepth) && row.waits [e])) =
        (rows.map (renamed attrs)).filter fun row => row.component.isNone := by
      apply filter_congr
      intro row hrow
      rw [hwaits row hrow, Option.not_isSome]
    have hbind {α β : Type} (a : α) (f : α → Except String β) : (Except.ok a >>= f) = f a := rfl
    simp only [hbind, hlimit, hpending, hentered]
    generalize hm0 : ((rows.map (renamed attrs)).filter fun row => row.component.isNone).foldl
      (fun m row => insertValue m row.info (plainValue row)) (idOnly e) = m0
    have hflat : (((rows.map (renamed attrs)).filter fun row => row.component.isSome).foldlM
          (expandPending (pullComponent scan db maxRecursionDepth)) (m0, [e])).map Prod.fst =
        (rows.map (renamed attrs)).foldlM (enterShallow scan db) m0 := by
      rw [← foldlM_enterShallow_filter]
      apply foldlM_expandPending_flat 99
      intro row hrow id hid
      exact (hkeyed row (mem_filter.mp hrow).1 id hid).2
    show ((rows.map (renamed attrs)).foldlM (enterShallow scan db) m0 >>= _) =
      Except.map Prod.fst (List.foldlM (expandPending (pullComponent scan db maxRecursionDepth))
        (m0, [e]) ((rows.map (renamed attrs)).filter fun row => row.component.isSome) >>= _)
    rw [← hflat]
    cases hpend : ((rows.map (renamed attrs)).filter fun row => row.component.isSome).foldlM
        (expandPending (pullComponent scan db maxRecursionDepth)) (m0, [e]) with
    | error err => rfl
    | ok st =>
      rw [hpend] at hflat
      refine congrArg Except.ok (hattrs.defaults_eq (e := e) (mem_askedRows hasked) fun key => ?_)
      -- the keys of the object are those of the rows, with or without a component
      rw [lookup_enterShallow_isSome hflat.symm, ← hm0, lookup_foldl_isSome, ← or_assoc]
      refine or_congr_left ?_
      constructor
      · rintro (⟨row, hrow, -, hkey⟩ | ⟨row, hrow, hkey⟩)
        · exact ⟨row, hrow, hkey⟩
        · exact ⟨row, (mem_filter.mp hrow).1, hkey⟩
      · rintro ⟨row, hrow, hkey⟩
        cases hid : row.component with
        | none =>
          refine .inr ⟨row, mem_filter.mpr ⟨hrow, ?_⟩, hkey⟩
          rw [hid]
          rfl
        | some id => exact .inl ⟨row, hrow, by rw [hid]; rfl, hkey⟩

theorem pullParsed_attrs {specs : List PullAttrSpec} (hspecs : specs.all PullAttrSpec.isAttribute)
    (hforward : ∀ attr ∈ specs.filterMap PullAttrSpec.attr?, attr.reverse = false) :
    pullParsed scan db specs e = (pullForwardAttributes scan db
      (pullComponent scan db maxRecursionDepth) maxRecursionDepth
      (specs.filterMap PullAttrSpec.attr?) e (idOnly e, [e])).map Prod.fst := by
  have hforwards : forwardAttrs specs = specs.filterMap PullAttrSpec.attr? := by
    apply filter_eq_self.mpr
    intro attr hattr
    rw [hforward attr hattr]
    rfl
  have hreverses : reverseAttrs specs = [] := by
    apply filter_eq_nil_iff.mpr
    intro attr hattr
    rw [hforward attr hattr]
    decide
  have hrest (overrides : List String) (st : PullState) :
      pullSpecs scan db overrides 0 e st specs = .ok st := by
    rw [all_eq_true] at hspecs
    clear hforwards hreverses hforward
    induction specs generalizing st with
    | nil => rfl
    | cons spec specs ih =>
      have hspec : pullSpec scan db overrides 0 e st spec = .ok st := by
        cases spec with
        | «attribute» attr => rfl
        | _ => cases hspecs _ mem_cons_self
      unfold pullSpecs
      rw [hspec]
      exact ih (fun spec h => hspecs spec (mem_cons_of_mem _ h)) st
  unfold pullParsed executePull pullAttributes
  simp only [hforwards, hreverses, hrest, Nat.sub_zero]
  cases pullForwardAttributes scan db (pullComponent scan db maxRecursionDepth) maxRecursionDepth
      (specs.filterMap PullAttrSpec.attr?) e (idOnly e, [e]) with
  | error err => rfl
  | ok st => rfl

end Entity

section HandOut

variable {α β : Type} {ids : List Int64} {results : List (Int64 × JsonObject)} {e : Int64}

theorem mapM_congr {f g : α → Except String β} {xs : List α} (h : ∀ x ∈ xs, f x = g x) :
    xs.mapM f = xs.mapM g := by
  induction xs with
  | nil => rfl
  | cons x xs ih =>
    rw [mapM_cons, mapM_cons, h x mem_cons_self,
      ih fun y hy => h y (mem_cons_of_mem _ hy)]

theorem mapM_pair (f : α → Except String β) (xs : List α) :
    (xs.mapM fun x => (f x).map fun y => (x, y)) = (xs.mapM f).map fun ys => xs.zip ys := by
  induction xs with
  | nil => rfl
  | cons x xs ih =>
    rw [mapM_cons, mapM_cons, ih]
    cases f x with
    | error err => rfl
    | ok y =>
      cases xs.mapM f with
      | error err | ok ys => rfl

theorem handOut_zip (hnodup : ids.Nodup) {ms : List JsonObject} (hlength : ms.length = ids.length) :
    handOut (ids.zip ms) ids = ms := by
  induction ids generalizing ms with
  | nil => exact (length_eq_zero_iff.mp hlength).symm
  | cons e ids ih =>
    obtain ⟨hnot, hnodup⟩ := nodup_cons.mp hnodup
    cases ms with
    | nil => cases hlength
    | cons m ms =>
      have hrest : ((e, m) :: ids.zip ms).filter (fun r => r.1 ≠ e) = ids.zip ms := by
        rw [filter_cons_of_neg (by simp), filter_eq_self]
        intro r hr
        have hmem : r.1 ∈ ids := (of_mem_zip hr).1
        simp only [decide_eq_true_eq]
        exact fun heq => hnot (heq ▸ hmem)
      rw [zip_cons_cons, handOut, hrest, ih hnodup (Nat.succ.inj hlength),
        lookup_cons_self]
      rfl

theorem handOut_gone {k : Nat} (hgone : results.lookup e = none) (hk : ids[k]? = some e) :
    (handOut results ids)[k]? = some (idOnly e) := by
  have hkeep {results : List (Int64 × JsonObject)} (d : Int64) (h : results.lookup e = none) :
      (results.filter fun r => r.1 ≠ d).lookup e = none := by
    rw [lookup_eq_none_iff] at h ⊢
    exact fun r hr => h r (mem_filter.mp hr).1
  induction ids generalizing results k with
  | nil => cases hk
  | cons d ids ih =>
    cases k with
    | zero =>
      obtain rfl : d = e := Option.some.inj hk
      unfold handOut
      rw [hgone]
      rfl
    | succ k => exact ih (hkeep d hgone) hk

theorem handOut_again {j k : Nat} (hjk : j < k) (hj : ids[j]? = some e) (hk : ids[k]? = some e) :
    (handOut results ids)[k]? = some (idOnly e) := by
  induction ids generalizing results j k with
  | nil => cases hj
  | cons d ids ih =>
    cases k with
    | zero => exact absurd hjk (Nat.not_lt_zero j)
    | succ k =>
      cases j with
      | zero =>
        obtain rfl : d = e := Option.some.inj hj
        have hlater : ids[k]? = some d := hk
        unfold handOut
        rw [List.getElem?_cons_succ]
        apply handOut_gone _ hlater
        rw [lookup_eq_none_iff]
        intro r hr
        have hkept := (mem_filter.mp hr).2
        have hne : r.1 ≠ d := of_decide_eq_true hkept
        exact bne_iff_ne.mpr hne.symm
      | succ j => exact ih (Nat.lt_of_succ_lt_succ hjk) hj hk

end HandOut

/-- A pattern that has more than attributes is pulled entity by entity, and so are no entities at
all. Attributes alone are too if the entities are different and can be batched. An entity that is
asked for again is shown by its id, so that it must have nothing to show. -/
theorem pullsPointwise_of_batches {display : EdnValue → String} {items : List EdnValue}
    {specs : List PullAttrSpec} (scan : ScanOrder) (db : Db) (ids : List Int64)
    (hparse : parsePullPattern display items = .ok specs) :
    (specs.all PullAttrSpec.isAttribute = false ∨ ids = [] →
      PullsPointwise display scan db (.vector items) ids) ∧
    (specs.all PullAttrSpec.isAttribute = true →
      BatchesAttrs (specs.filterMap PullAttrSpec.attr?) → ids.Nodup →
      (∀ e ∈ ids, BatchesEntity scan db (specs.filterMap PullAttrSpec.attr?) e) →
      PullsPointwise display scan db (.vector items) ids) ∧
    (specs.all PullAttrSpec.isAttribute = true →
      PullsPointwise display scan db (.vector items) ids →
      ∀ results, mentatPullMany display scan db (.vector items) ids = .ok results →
      ∀ (j k : Nat) (e : Int64), j < k → ids[j]? = some e → ids[k]? = some e →
        mentatPull display scan db (.vector items) e = .ok (idOnly e)) := by
  have hpull : mentatPull display scan db (.vector items) = pullParsed scan db specs := by
    funext e
    simp only [mentatPull, hparse]
    rfl
  have hmany : mentatPullMany display scan db (.vector items) ids =
      pullManyParsed scan db specs ids := by
    simp only [mentatPullMany, hparse]
    rfl
  unfold PullsPointwise
  rw [hmany, hpull]
  unfold pullManyParsed
  refine ⟨?_, fun hspecs hattrs hnodup hentities => ?_, fun hspecs h results hok => ?_⟩
  · rintro (hmore | rfl)
    · rw [if_neg (by rw [hmore]; decide)]
    · split <;> rfl
  · rw [if_pos hspecs]
    unfold pullManyBatched
    by_cases hids : ids = []
    · rw [if_pos hids, hids]
      rfl
    · rw [if_neg hids, if_neg hattrs.some, List.Nodup.dedup hnodup, mapM_pair]
      have hsame : ids.mapM (batchedEntity scan db (specs.filterMap PullAttrSpec.attr?)) =
          ids.mapM (pullParsed scan db specs) := by
        apply mapM_congr
        intro e he
        rw [(hentities e he).batchedEntity_eq hattrs, pullParsed_attrs hspecs hattrs.forward]
      rw [hsame]
      cases hms : ids.mapM (pullParsed scan db specs) with
      | error err => rfl
      | ok ms =>
        have hlength := (Unification.forall₂_of_mapM_ok hms).length_eq
        exact congrArg Except.ok (handOut_zip hnodup hlength.symm)
  · intro j k e hjk hj hk
    rw [if_pos hspecs] at h hok
    rw [hok] at h
    have hpulled := Unification.forall₂_of_mapM_ok h.symm
    have hne : ids ≠ [] := by
      intro hnil
      rw [hnil] at hj
      cases hj
    unfold pullManyBatched at hok
    rw [if_neg hne] at hok
    split at hok
    · cases hok
    · obtain ⟨made, -, hok⟩ := Unification.bind_eq_ok hok
      have hresults : results = handOut made ids := (Except.ok.inj hok).symm
      have hshown : results[k]? = some (idOnly e) := hresults ▸ handOut_again hjk hj hk
      obtain ⟨hlt, hget⟩ := List.getElem?_eq_some_iff.mp hk
      obtain ⟨hlt', hget'⟩ := List.getElem?_eq_some_iff.mp hshown
      have hat := hpulled.get hlt hlt'
      rw [get_eq_getElem, get_eq_getElem, hget, hget'] at hat
      exact hat

/-- `[:order/line :db/doc]` -/
def linePattern : List EdnValue := [.keyword ⟨some "order", "line"⟩, .keyword ⟨some "db", "doc"⟩]

def lineAttrs : List AttrSpec :=
  [⟨⟨":order/line", false, ":order/line"⟩, none, none, none⟩,
   ⟨⟨":db/doc", false, ":db/doc"⟩, none, none, none⟩]

theorem rowValue_of_text {c : SchemaCache} {row : PullRow} {s : String} (h : row.v = .text s) :
    rowValue c row none = plainValue row ∧ row.component = none := by
  unfold rowValue plainValue PullRow.component
  rw [h]
  exact ⟨rfl, by simp⟩

/-- A line with a component, and the component itself. -/
theorem pullsPointwise_of_batches_lines :
    ∃ db, stateAfter [defineLine, shareLine] = some db ∧
      PullsPointwise (fun _ => "") .heap db (.vector linePattern) [600, 700] := by
  have hstate : ∃ db, stateAfter [defineLine, shareLine] = some db ∧
      ([600, 700].all fun e => ∀ rows, askedRows .heap db lineAttrs e = .ok rows → ∀ row ∈ rows,
        (∀ n ∈ resolveLimit ((specFor lineAttrs row.info.ident).bind AttrSpec.limit),
          (rows.map fun row => row.info.ident).count row.info.ident ≤ n) ∧
        ∀ id ∈ row.component, id = 700 ∧ e ≠ 700) ∧
      ∀ rows, pullRows .heap db 700 = .ok rows → ∀ row ∈ rows, row.v = .text "shared" := by
    decide +kernel
  obtain ⟨db, hdb, hasked, htext⟩ := hstate
  have hflat : FlatComponent .heap db 700 := fun rows hrows row hrow =>
    rowValue_of_text (htext rows hrows row hrow)
  have hentities : ∀ e ∈ [(600 : Int64), 700], BatchesEntity .heap db lineAttrs e := by
    intro e he
    have hasked := of_decide_eq_true (all_eq_true.mp hasked e he)
    refine ⟨fun rows hrows row hrow => (hasked rows hrows row hrow).1, ?_⟩
    intro rows hrows row hrow id hid
    obtain ⟨rfl, hne⟩ := (hasked rows hrows row hrow).2 id hid
    exact ⟨hne.symm, hflat⟩
  have hattrs : BatchesAttrs lineAttrs := ⟨by decide, by decide, .inl (by decide)⟩
  have hparse : parsePullPattern (fun _ => "") linePattern =
      .ok (lineAttrs.map PullAttrSpec.attribute) := by
    rfl
  exact ⟨db, hdb, (pullsPointwise_of_batches .heap db [600, 700] hparse).2.1 (by decide) hattrs
    (by decide) hentities⟩

/-- The second time the shared line is asked for, its text is missing. -/
theorem not_pullsPointwise_again :
    ∃ db results, stateAfter [defineLine, shareLine] = some db ∧
      mentatPullMany (fun _ => "") .heap db (.vector linePattern) [700, 700] = .ok results ∧
      (results.map fun m => (m.lookup ":db/doc").bind JsonValue.asStr) = [some "shared", none] ∧
      (∃ m, mentatPull (fun _ => "") .heap db (.vector linePattern) 700 = .ok m ∧
        (m.lookup ":db/doc").bind JsonValue.asStr = some "shared") ∧
      ¬ PullsPointwise (fun _ => "") .heap db (.vector linePattern) [700, 700] := by
  have hstate : ∃ db, stateAfter [defineLine, shareLine] = some db ∧ (∃ results,
      mentatPullMany (fun _ => "") .heap db (.vector linePattern) [700, 700] = .ok results ∧
      (results.map fun m => (m.lookup ":db/doc").bind JsonValue.asStr) = [some "shared", none]) ∧
      ∃ m, mentatPull (fun _ => "") .heap db (.vector linePattern) 700 = .ok m ∧
        (m.lookup ":db/doc").bind JsonValue.asStr = some "shared" := by
    decide +kernel
  obtain ⟨db, hdb, ⟨results, hresults, hshown⟩, m, hm, htext⟩ := hstate
  refine ⟨db, results, hdb, hresults, hshown, ⟨m, hm, htext⟩, fun h => ?_⟩
  unfold PullsPointwise at h
  rw [hresults] at h
  have heach := Unification.forall₂_of_mapM_ok h.symm
  obtain ⟨m1, rest, -, hrest, rfl⟩ := List.forall₂_cons_left_iff.mp heach
  obtain ⟨m2, rest, hm2, -, rfl⟩ := List.forall₂_cons_left_iff.mp hrest
  cases hm.symm.trans hm2
  rw [map_cons, map_cons, htext] at hshown
  cases (List.cons.inj (List.cons.inj hshown).2).1

end PgMentat
