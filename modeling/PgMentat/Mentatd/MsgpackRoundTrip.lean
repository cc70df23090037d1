import PgMentat.Mentatd.Msgpack

namespace PgMentat

open List BigEndian Reader

namespace ResponseValue

mutual

def reread : ResponseValue → TransitValue
  | .list items => transitArray [.string "~#list", transitArray (rereadItems items)]
  | .vector items => transitArray (rereadItems items)
  | .map entries => .map (rereadEntries entries)
  | v => v.transit

def rereadItems : List ResponseValue → List TransitValue
  | [] => []
  | item :: items => item.reread :: rereadItems items

def rereadEntries : List (ResponseValue × ResponseValue) → List (TransitValue × TransitValue)
  | [] => []
  | (key, value) :: entries => (key.reread, value.reread) :: rereadEntries entries

end

mutual

/-- How many levels the decoder goes down. -/
def nesting : ResponseValue → Nat
  | .list items => 1 + nestingItems items
  | .vector items => nestingItems items
  | .map entries => 1 + nestingEntries entries
  | .dbSnapshot _ _ => 2
  | _ => 0

def nestingItems : List ResponseValue → Nat
  | [] => 0
  | item :: items => max (1 + item.nesting) (nestingItems items)

def nestingEntries : List (ResponseValue × ResponseValue) → Nat
  | [] => 0
  | (key, value) :: entries => max (max key.nesting value.nesting) (nestingEntries entries)

end

/-- Neither a float nor a snapshot; identifiers and instants as the database has them. -/
def Representable : ResponseValue → Prop
  | .float _ => False
  | .dbSnapshot _ _ => False
  | .uuid u => (Uuid.parseStr u.toList).isSome = true
  | .instant micros => micros % 1000 = 0
  | _ => True

/-- Every string that is written, with its tag, and every array have a length in 32 bits. -/
def FitsOnWire : ResponseValue → Prop
  | .string s => (utf8 (escapeTilde s)).length < 2 ^ 32
  | .keyword k => (utf8 ("~:" ++ k)).length < 2 ^ 32
  | .uuid u => (utf8 ("~u" ++ u)).length < 2 ^ 32
  | .instant micros => (utf8 ("~m" ++ toString (micros / 1000).toInt)).length < 2 ^ 32
  | .list items => items.length < 2 ^ 32
  | .vector items => items.length < 2 ^ 32
  | .map entries => 1 + entries.length * 2 < 2 ^ 32
  | _ => True

/-- The items begin as a map does, or look like a tagged sequence. -/
def readsAsMarker : List ResponseValue → Bool
  | .string marker :: rest =>
    marker = "^ " || (marker = "~#list" || marker = "~#set") &&
      match rest with
      | [.list _] => true
      | [.vector _] => true
      | _ => false
  | _ => false

def Unmarked : ResponseValue → Prop
  | .list items => readsAsMarker items = false
  | .vector items => readsAsMarker items = false
  | _ => True

theorem rereadItems_eq_map (items : List ResponseValue) :
    rereadItems items = items.map reread := by
  induction items with
  | nil => rfl
  | cons item items ih => rw [rereadItems, ih, map_cons]

theorem rereadEntries_eq_map (entries : List (ResponseValue × ResponseValue)) :
    rereadEntries entries = entries.map fun entry => (entry.1.reread, entry.2.reread) := by
  induction entries with
  | nil => rfl
  | cons entry entries ih => rw [rereadEntries, ih, map_cons]

theorem nesting_lt_of_mem {items : List ResponseValue} {item : ResponseValue}
    (h : item ∈ items) : item.nesting < nestingItems items := by
  induction items with
  | nil => exact nomatch h
  | cons first rest ih =>
    rw [nestingItems]
    rcases mem_cons.mp h with rfl | h
    · omega
    · have := ih h
      omega

theorem nesting_le_of_mem {entries : List (ResponseValue × ResponseValue)}
    {entry : ResponseValue × ResponseValue} (h : entry ∈ entries) :
    entry.1.nesting ≤ nestingEntries entries ∧ entry.2.nesting ≤ nestingEntries entries := by
  induction entries with
  | nil => exact nomatch h
  | cons first rest ih =>
    obtain ⟨key, value⟩ := first
    rw [nestingEntries]
    rcases mem_cons.mp h with rfl | h
    · constructor <;> dsimp only <;> omega
    · have := ih h
      omega

end ResponseValue

section Reread

variable {doubles : DoubleBits} {left : Nat}

open ResponseValue

theorem reads_items {items : List ResponseValue}
    (h : ∀ item ∈ items, Reads (readLeft doubles left) (valueToMsgpack doubles item) item.reread) :
    Reads (times (readLeft doubles left) items.length) (itemsToMsgpack doubles items)
      (rereadItems items) := by
  induction items with
  | nil => exact .pure []
  | cons item items ih =>
    have hrest := ih fun x hx => h x (mem_cons_of_mem _ hx)
    exact (h item mem_cons_self).times_succ hrest

def rereadFlat (entries : List (ResponseValue × ResponseValue)) : List TransitValue :=
  entries.flatMap fun entry => [entry.1.reread, entry.2.reread]

theorem pairUp_rereadFlat (entries : List (ResponseValue × ResponseValue)) :
    pairUp (rereadFlat entries) = rereadEntries entries := by
  induction entries with
  | nil => rfl
  | cons entry entries ih =>
    rw [rereadFlat, flatMap_cons, cons_append, cons_append, pairUp,
      nil_append]
    exact congrArg _ ih

theorem reads_entries {entries : List (ResponseValue × ResponseValue)}
    (h : ∀ entry ∈ entries,
      Reads (readLeft doubles left) (valueToMsgpack doubles entry.1) entry.1.reread ∧
        Reads (readLeft doubles left) (valueToMsgpack doubles entry.2) entry.2.reread) :
    Reads (times (readLeft doubles left) (entries.length * 2)) (entriesToMsgpack doubles entries)
      (rereadFlat entries) := by
  induction entries with
  | nil => exact .pure []
  | cons entry entries ih =>
    obtain ⟨hkey, hvalue⟩ := h entry mem_cons_self
    have hrest := ih fun x hx => h x (mem_cons_of_mem _ hx)
    rw [entriesToMsgpack, append_assoc, length_cons, Nat.succ_mul]
    exact hkey.times_succ (hvalue.times_succ hrest)

theorem reads_atom {v : ResponseValue} (hatom : v.IsAtom) (hrep : v.Representable)
    (hfits : v.FitsOnWire) :
    Reads (readLeft doubles (left + 1)) (valueToMsgpack doubles v) v.transit := by
  cases v with
  | nil => exact reads_readLeft (.pure _)
  | boolean b => cases b <;> exact reads_readLeft (.pure _)
  | integer n => exact reads_msgpackWriteI64 n
  | string s =>
    rw [transit, ← decode_escapeTilde s]
    exact reads_msgpackWriteStr hfits
  | keyword k =>
    rw [transit, ← decode_keyword k]
    exact reads_msgpackWriteStr hfits
  | instant micros =>
    rw [transit, ← decode_instant (micros / 1000)]
    exact reads_msgpackWriteStr hfits
  | uuid u =>
    rw [transit, ← decode_uuid u]
    exact reads_msgpackWriteStr hfits
  | float f | dbSnapshot dbId basisT => exact hrep.elim
  | list items | vector items | map entries => exact hatom.elim

theorem reads_valueToMsgpack {v : ResponseValue} (hrep : v.Every Representable)
    (hfits : v.Every FitsOnWire) (hdeep : v.nesting < left) :
    Reads (readLeft doubles left) (valueToMsgpack doubles v) v.reread := by
  -- the items of a list and of a vector
  have hsequence {items : List ResponseValue} (hlen : items.length < 2 ^ 32)
      (ih : ∀ item ∈ items, Representable item ∧ ∀ left, item.nesting < left →
        Reads (readLeft doubles left) (valueToMsgpack doubles item) item.reread)
      {l : Nat} (hl : nestingItems items ≤ l) : Reads (readLeft doubles (l + 1))
        (msgpackWriteArrayLen items.length ++ itemsToMsgpack doubles items)
        (transitArray (rereadItems items)) := by
    apply reads_msgpackWriteArrayLen hlen
    refine (reads_items fun item hitem => ?_).map transitArray
    have hlt := nesting_lt_of_mem hitem
    exact (ih item hitem).2 l (by omega)
  suffices h : ∀ left, v.nesting < left →
      Reads (readLeft doubles left) (valueToMsgpack doubles v) v.reread from h left hdeep
  refine Every.inductMem (fun v hatom hrep hfits left hdeep => ?_)
    (fun items hfits ih left hdeep => ?_) (fun items hfits ih left hdeep => ?_)
    (fun entries hfits ih left hdeep => ?_) hrep hfits
  · obtain ⟨l, rfl⟩ : ∃ l, left = l + 1 := Nat.exists_eq_succ_of_ne_zero (by omega)
    cases v with
    | list items | vector items | map entries => exact hatom.elim
    | _ => exact reads_atom hatom hrep hfits
  · rw [nesting] at hdeep
    obtain ⟨l, rfl⟩ : ∃ l, left = l + 2 := ⟨left - 2, by omega⟩
    have hinner := hsequence hfits ih (l := l) (by omega)
    have hmarker : Reads (readLeft doubles (l + 1)) (msgpackWriteStr "~#list")
        (.string "~#list") := reads_msgpackWriteStr (by decide)
    rw [valueToMsgpack, append_assoc, append_assoc]
    apply reads_msgpackWriteArrayLen (by decide)
    have hpair := (reads_times (.cons hmarker (.cons hinner .nil))).map transitArray
    rw [flatten_cons, flatten_cons, flatten_nil, append_nil] at hpair
    exact hpair
  · obtain ⟨l, rfl⟩ : ∃ l, left = l + 1 := Nat.exists_eq_succ_of_ne_zero (by omega)
    rw [nesting] at hdeep
    exact hsequence hfits ih (by omega)
  · rw [nesting] at hdeep
    obtain ⟨l, rfl⟩ : ∃ l, left = l + 2 := ⟨left - 2, by omega⟩
    have hmarker : Reads (readLeft doubles (l + 1)) (msgpackWriteStr "^ ") (.string "^ ") :=
      reads_msgpackWriteStr (by decide)
    have hentries : Reads (times (readLeft doubles (l + 1)) (entries.length * 2))
        (entriesToMsgpack doubles entries) (rereadFlat entries) := by
      refine reads_entries fun entry hentry => ?_
      obtain ⟨hkey, hvalue⟩ := nesting_le_of_mem hentry
      exact ⟨(ih entry hentry).1 _ (by omega), (ih entry hentry).2 _ (by omega)⟩
    rw [valueToMsgpack, append_assoc]
    apply reads_msgpackWriteArrayLen hfits
    rw [reread, ← pairUp_rereadFlat, Nat.add_comm 1]
    exact (hmarker.times_succ hentries).map transitArray

end Reread

namespace TransitValue

mutual

def arrays : TransitValue → Nat
  | .array items => 1 + arraysItems items
  | .map entries => arraysEntries entries
  | _ => 0

def arraysItems : List TransitValue → Nat
  | [] => 0
  | item :: items => item.arrays + arraysItems items

def arraysEntries : List (TransitValue × TransitValue) → Nat
  | [] => 0
  | (key, value) :: entries => key.arrays + value.arrays + arraysEntries entries

end

theorem arraysEntries_pairUp_le (items : List TransitValue) :
    arraysEntries (pairUp items) ≤ arraysItems items := by
  induction items using pairUp.induct with
  | case1 key value rest ih =>
    rw [pairUp, arraysEntries, arraysItems, arraysItems]
    omega
  | case2 items hshort =>
    unfold pairUp
    split
    · exact absurd rfl (hshort _ _ _)
    · exact Nat.zero_le _

end TransitValue

theorem transitArray_cases (items : List TransitValue) :
    (∃ rest, items = .string "^ " :: rest ∧ transitArray items = .map (pairUp rest)) ∨
    (∃ tag inner, (tag = "~#list" ∨ tag = "~#set") ∧ items = [.string tag, .array inner] ∧
      transitArray items = .array inner) ∨
    transitArray items = .array items := by
  unfold transitArray
  split
  · rename_i marker rest
    by_cases hmap : marker = "^ "
    · exact .inl ⟨rest, by rw [hmap], if_pos hmap⟩
    · rw [if_neg hmap]
      split
      · rename_i inner
        by_cases htag : marker = "~#list" ∨ marker = "~#set"
        · exact .inr (.inl ⟨marker, inner, htag, rfl, if_pos htag⟩)
        · exact .inr (.inr (if_neg htag))
      · exact .inr (.inr rfl)
  · exact .inr (.inr rfl)

theorem transitArray_map (rest : List TransitValue) :
    transitArray (.string "^ " :: rest) = .map (pairUp rest) := by
  simp [transitArray]

theorem transitArray_tagged {tag : String} (h : tag = "~#list" ∨ tag = "~#set")
    (inner : List TransitValue) : transitArray [.string tag, .array inner] = .array inner := by
  have hne : tag ≠ "^ " := by rcases h with rfl | rfl <;> decide
  simp [transitArray, hne, h]

theorem transitArray_list (entries : List (TransitValue × TransitValue)) :
    transitArray [.string "~#list", .map entries] =
      .array [.string "~#list", .map entries] := by
  simp [transitArray]

namespace ResponseValue

open TransitValue

variable {v : ResponseValue} {items : List ResponseValue}

theorem reread_of_isAtom (h : v.IsAtom) : v.reread = v.transit := by
  cases v with
  | list | vector | map => exact h.elim
  | _ => rfl

theorem arraysItems_reread_le
    (h : ∀ item ∈ items, item.reread.arrays ≤ item.transit.arrays) :
    arraysItems (rereadItems items) ≤ arraysItems (transitItems items) := by
  induction items with
  | nil => exact le_refl _
  | cons item items ih =>
    have hfirst := h item mem_cons_self
    have hrest := ih fun x hx => h x (mem_cons_of_mem _ hx)
    simp only [rereadItems, transitItems, arraysItems]
    omega

theorem arraysEntries_reread_le {entries : List (ResponseValue × ResponseValue)}
    (h : ∀ entry ∈ entries, entry.1.reread.arrays ≤ entry.1.transit.arrays ∧
      entry.2.reread.arrays ≤ entry.2.transit.arrays) :
    arraysEntries (rereadEntries entries) ≤ arraysEntries (transitEntries entries) := by
  induction entries with
  | nil => exact le_refl _
  | cons entry entries ih =>
    obtain ⟨hkey, hvalue⟩ := h entry mem_cons_self
    have hrest := ih fun x hx => h x (mem_cons_of_mem _ hx)
    simp only [rereadEntries, transitEntries, arraysEntries]
    omega

theorem arrays_transitArray_le (items : List TransitValue) :
    (∃ inner, transitArray items = .array inner ∧ arraysItems inner ≤ arraysItems items) ∨
      ∃ entries, transitArray items = .map entries ∧ arraysEntries entries ≤ arraysItems items := by
  rcases transitArray_cases items with ⟨rest, rfl, h⟩ | ⟨tag, inner, -, rfl, h⟩ | h
  · refine .inr ⟨_, h, (arraysEntries_pairUp_le rest).trans ?_⟩
    rw [arraysItems]
    omega
  · refine .inl ⟨_, h, ?_⟩
    simp only [arraysItems, arrays]
    omega
  · exact .inl ⟨items, h, le_refl _⟩

theorem arrays_reread_le (v : ResponseValue) : v.reread.arrays ≤ v.transit.arrays := by
  induction v using ResponseValue.inductMem with
  | atom v hatom => rw [reread_of_isAtom hatom]
  | vector items ih =>
    have hitems := arraysItems_reread_le ih
    rw [reread, transit, arrays]
    rcases arrays_transitArray_le (rereadItems items) with ⟨inner, h, hle⟩ | ⟨entries, h, hle⟩
    · rw [h, arrays]
      omega
    · rw [h, arrays]
      omega
  | list items ih =>
    have hitems := arraysItems_reread_le ih
    rw [reread, transit, arrays]
    rcases arrays_transitArray_le (rereadItems items) with ⟨inner, h, hle⟩ | ⟨entries, h, hle⟩
    · rw [h, transitArray_tagged (.inl rfl), arrays]
      omega
    · rw [h, transitArray_list]
      simp only [arrays, arraysItems]
      omega
  | map entries ih =>
    simp only [reread, transit, arrays]
    exact arraysEntries_reread_le ih

theorem eq_string_of_transit {s : String} (hrep : v.Representable) (h : v.transit = .string s) :
    v = .string s := by
  cases v with
  | string s' => cases h; rfl
  | uuid u =>
    obtain ⟨w, hw⟩ := Option.isSome_iff_exists.mp hrep
    rw [transit, hw] at h
    cases h
  | _ => cases h

theorem sequence_of_transit {inner : List TransitValue} (hrep : v.Representable)
    (h : v.transit = .array inner) : (∃ xs, v = .list xs) ∨ ∃ xs, v = .vector xs := by
  cases v with
  | list xs => exact .inl ⟨xs, rfl⟩
  | vector xs => exact .inr ⟨xs, rfl⟩
  | uuid u =>
    obtain ⟨w, hw⟩ := Option.isSome_iff_exists.mp hrep
    rw [transit, hw] at h
    cases h
  | dbSnapshot => exact hrep.elim
  | _ => cases h

theorem rereadItems_eq_iff :
    rereadItems items = transitItems items ↔ ∀ item ∈ items, item.reread = item.transit := by
  rw [rereadItems_eq_map, transitItems_eq_map]
  exact map_inj_left

theorem reread_string (s : String) : (ResponseValue.string s).reread = .string s := rfl

theorem transitArray_tagged_ne {marker : String} {inner : List TransitValue}
    (htag : marker = "~#list" ∨ marker = "~#set") :
    transitArray [.string marker, .array inner] ≠ .array [.string marker, .array inner] := by
  intro h
  rw [transitArray_tagged htag] at h
  have hcount := congrArg arrays h
  simp only [arrays, arraysItems] at hcount
  omega

theorem not_readsAsMarker (hitems : ∀ item ∈ items, item.reread = item.transit)
    (h : transitArray (rereadItems items) = .array (rereadItems items)) :
    readsAsMarker items = false := by
  unfold readsAsMarker
  split
  · rename_i marker rest
    rw [rereadItems, reread_string] at h
    have hmap : marker ≠ "^ " := by
      intro hmap
      rw [hmap, transitArray_map] at h
      cases h
    by_cases htag : marker = "~#list" ∨ marker = "~#set"
    · split
      · rename_i xs
        rw [rereadItems, rereadItems, hitems _ (by simp)] at h
        exact absurd h (transitArray_tagged_ne htag)
      · rename_i xs
        rw [rereadItems, rereadItems, hitems _ (by simp)] at h
        exact absurd h (transitArray_tagged_ne htag)
      · simp [hmap]
    · simp only [not_or] at htag
      simp [hmap, htag.1, htag.2]
  · rfl

theorem readsAsMarker_of_transit (hrep : ∀ item ∈ items, item.Representable)
    (h : transitArray (transitItems items) ≠ .array (transitItems items)) :
    readsAsMarker items = true := by
  rw [transitItems_eq_map] at h
  rcases transitArray_cases (items.map transit) with
    ⟨rest, heq, -⟩ | ⟨tag, inner, htag, heq, -⟩ | hread
  · obtain ⟨first, others, rfl, hfirst, -⟩ := map_eq_cons_iff.mp heq
    rw [eq_string_of_transit (hrep _ mem_cons_self) hfirst]
    rfl
  · obtain ⟨first, others, rfl, hfirst, hothers⟩ := map_eq_cons_iff.mp heq
    obtain ⟨second, none, rfl, hsecond, hnone⟩ := map_eq_cons_iff.mp hothers
    obtain rfl := map_eq_nil_iff.mp hnone
    rw [eq_string_of_transit (hrep _ mem_cons_self) hfirst]
    have hsequence := sequence_of_transit (hrep _ (by simp)) hsecond
    rcases hsequence with ⟨xs, rfl⟩ | ⟨xs, rfl⟩
    · rcases htag with rfl | rfl <;> rfl
    · rcases htag with rfl | rfl <;> rfl
  · exact absurd hread h

theorem transitArray_rereadItems_iff (hrep : ∀ item ∈ items, item.Representable) :
    transitArray (rereadItems items) = .array (transitItems items) ↔
      (∀ item ∈ items, item.reread = item.transit) ∧ readsAsMarker items = false := by
  constructor
  · intro h
    rcases transitArray_cases (rereadItems items) with
      ⟨rest, -, hread⟩ | ⟨tag, inner, -, heq, hread⟩ | hread
    · cases hread.symm.trans h
    · -- the second item would have more arrays than it was written with
      cases hread.symm.trans h
      rw [rereadItems_eq_map] at heq
      obtain ⟨first, others, rfl, -, hothers⟩ := map_eq_cons_iff.mp heq
      obtain ⟨second, none, rfl, hsecond, hnone⟩ := map_eq_cons_iff.mp hothers
      obtain rfl := map_eq_nil_iff.mp hnone
      have hle := arrays_reread_le second
      rw [hsecond] at hle
      simp only [transitItems, arrays, arraysItems] at hle
      omega
    · have hsame : rereadItems items = transitItems items := by
        rw [hread] at h
        exact TransitValue.array.inj h
      have hitems := rereadItems_eq_iff.mp hsame
      exact ⟨hitems, not_readsAsMarker hitems hread⟩
  · rintro ⟨hitems, hmarker⟩
    rw [rereadItems_eq_iff.mpr hitems]
    by_contra h
    rw [readsAsMarker_of_transit hrep h] at hmarker
    cases hmarker

theorem reread_list_iff (hrep : ∀ item ∈ items, item.Representable) :
    (ResponseValue.list items).reread = .array (transitItems items) ↔
      transitArray (rereadItems items) = .array (transitItems items) := by
  rw [reread]
  rcases transitArray_cases (rereadItems items) with
    ⟨rest, heq, hread⟩ | ⟨tag, inner, -, -, hread⟩ | hread
  · rw [hread, transitArray_list]
    refine ⟨fun h => ?_, fun h => by cases h⟩
    rw [rereadItems_eq_map] at heq
    rw [transitItems_eq_map] at h
    obtain ⟨first, others, rfl, hfirst, -⟩ := map_eq_cons_iff.mp heq
    have hhead := (List.cons.inj (TransitValue.array.inj h)).1
    rw [eq_string_of_transit (hrep _ mem_cons_self) hhead.symm, reread_string] at hfirst
    exact absurd (TransitValue.string.inj hfirst) (by decide)
  · rw [hread, transitArray_tagged (.inl rfl)]
  · rw [hread, transitArray_tagged (.inl rfl)]

theorem reread_eq_transit_iff (hrep : v.Every Representable) :
    v.reread = v.transit ↔ v.Every Unmarked := by
  induction v using ResponseValue.inductMem with
  | atom v hatom =>
    rw [reread_of_isAtom hatom]
    cases v with
    | list | vector | map => exact hatom.elim
    | _ => exact ⟨fun _ => trivial, fun _ => rfl⟩
  | vector items ih =>
    have hitems := everyItem_iff.mp hrep.2
    rw [reread, transit, transitArray_rereadItems_iff fun item h => (hitems item h).self, Every,
      everyItem_iff, and_comm]
    exact and_congr_right fun _ => forall₂_congr fun item h => ih item h (hitems item h)
  | list items ih =>
    have hitems := everyItem_iff.mp hrep.2
    rw [transit, reread_list_iff fun item h => (hitems item h).self,
      transitArray_rereadItems_iff fun item h => (hitems item h).self, Every, everyItem_iff,
      and_comm]
    exact and_congr_right fun _ => forall₂_congr fun item h => ih item h (hitems item h)
  | map entries ih =>
    have hentries := everyEntry_iff.mp hrep.2
    rw [reread, transit, rereadEntries_eq_map, transitEntries_eq_map, TransitValue.map.injEq,
      map_inj_left, Every, everyEntry_iff]
    have hunmarked : Unmarked (.map entries) := trivial
    refine (forall₂_congr fun entry h => ?_).trans (and_iff_right hunmarked).symm
    rw [Prod.mk.injEq, (ih entry h).1 (hentries entry h).1, (ih entry h).2 (hentries entry h).2]

end ResponseValue

/-- Followed by anything, the bytes of the value are read as the value that stands for it. -/
def RoundTrips (doubles : DoubleBits) (v : ResponseValue) : Prop :=
  ∀ suffix, msgpackReadValueBounded doubles (valueToMsgpack doubles v ++ suffix) 0 =
    .ok (v.transit, suffix)

open ResponseValue

/-- A value with representable parts comes back if and only if no list or vector in it begins with
the string of the map marker or is a tag of sequences and a sequence. -/
theorem roundTrips_iff_unmarked (doubles : DoubleBits) {v : ResponseValue}
    (hrep : v.Every Representable) (hfits : v.Every FitsOnWire)
    (hdeep : v.nesting ≤ maxNestingDepth) : RoundTrips doubles v ↔ v.Every Unmarked := by
  have hread : Reads (readLeft doubles (maxNestingDepth + 1)) (valueToMsgpack doubles v) v.reread :=
    reads_valueToMsgpack hrep hfits (by omega)
  rw [← reread_eq_transit_iff hrep]
  constructor
  · intro h
    have hsame := (hread []).symm.trans (h [])
    exact congrArg Prod.fst (Except.ok.inj hsame)
  · intro h suffix
    rw [← h]
    exact hread suffix

def noDoubleBits : DoubleBits := ⟨fun _ => 0, fun _ => .nan, fun _ => .nan⟩

/-- `[:a {"k" (1 -200)}]`. -/
def nestedResponse : ResponseValue :=
  .vector [.keyword "a", .map [(.string "k", .list [.integer 1, .integer (-200)])]]

theorem roundTrips_iff_unmarked_nested : RoundTrips noDoubleBits nestedResponse := by
  have hrep : nestedResponse.Every Representable := by
    simp [nestedResponse, Every, EveryItem, EveryEntry, Representable]
  have hfits : nestedResponse.Every FitsOnWire := by
    have hwritten : (utf8 "~:a").length < 2 ^ 32 ∧ (utf8 (escapeTilde "k")).length < 2 ^ 32 := by
      decide
    simpa [nestedResponse, Every, EveryItem, EveryEntry, FitsOnWire] using hwritten
  have hunmarked : nestedResponse.Every Unmarked := by
    simp [nestedResponse, Every, EveryItem, EveryEntry, Unmarked, readsAsMarker]
  exact (roundTrips_iff_unmarked noDoubleBits hrep hfits (by decide)).mpr hunmarked

/-- `["^ " 1]`. -/
def caretResponse : ResponseValue := .vector [.string "^ ", .integer 1]

/-- The vector is read as an empty map. -/
theorem not_roundTrips_caret : ¬ RoundTrips noDoubleBits caretResponse := by
  have hread : msgpackReadValueBounded noDoubleBits
      (valueToMsgpack noDoubleBits caretResponse ++ []) 0 = .ok (.map [], []) := by
    rfl
  intro h
  cases hread.symm.trans (h [])

end PgMentat
