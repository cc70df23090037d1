import Mathlib.Tactic.IntervalCases
import PgMentat.Mentatd.Msgpack

namespace PgMentat

open BigEndian Reader

inductive ScanFailure where
  | message (text : String)
  | panic
deriving DecidableEq

/-- The slots reserved so far, and the deepest level at which bytes were looked at. -/
structure ScanLog where
  reserved : Nat := 0
  deepest : Nat := 0

abbrev Scan (α : Type) := StateT (List UInt8) (ExceptT ScanFailure (StateM ScanLog)) α

def failScan {α : Type} (text : String) : Scan α := fun _ log => (.error (.message text), log)

def ensureLen (needed : Nat) : Scan Unit := fun buf log =>
  if buf.length < needed then
    (.error (.message ("Need " ++ toString needed ++ " bytes but only " ++ toString buf.length ++
      " available")), log)
  else (.ok ((), buf), log)

/-- The slices `buf[..n]` and `buf[n..]`. -/
def slice (n : Nat) : Scan (List UInt8) := fun buf log =>
  if n ≤ buf.length then (.ok (buf.take n, buf.drop n), log) else (.error .panic, log)

def firstByte : Scan UInt8 := fun buf log =>
  match buf with
  | [] => (.error .panic, log)
  | first :: rest => (.ok (first, rest), log)

def withCapacity (count : Nat) : Scan Unit := fun buf log =>
  (.ok ((), buf), { log with reserved := log.reserved + count })

/-- A call at this depth has passed the two checks at its head. -/
def enter (depth : Nat) : Scan Unit := fun buf log =>
  if buf.isEmpty then (.error (.message "Unexpected end of input"), log)
  else (.ok ((), buf), { log with deepest := max log.deepest depth })

def scanBytes (n : Nat) : Scan (List UInt8) := do
  ensureLen n
  slice n

def scanNat (k : Nat) : Scan Nat := ofBigEndian <$> scanBytes k

def scanStr (form : String) (len : Nat) : Scan TransitValue := do
  let bytes ← scanBytes len
  match fromUtf8 bytes with
  | some s => pure (decodeTransitTaggedString s)
  | none => failScan (invalidUtf8 form bytes)

def scanBin (len : Nat) : Scan TransitValue := do
  let bytes ← scanBytes len
  return .string (String.ofList ('0' :: 'x' :: TextCodec.hexEncode bytes))

def scanTimes {α : Type} (scan : Scan α) : Nat → Scan (List α)
  | 0 => pure []
  | n + 1 => do
    let a ← scan
    let as ← scanTimes scan n
    return a :: as

def msgpackReadTransitArray (scan : Scan TransitValue) (count : Nat) : Scan TransitValue := do
  withCapacity count
  transitArray <$> scanTimes scan count

def msgpackReadMap (scan : Scan TransitValue) (count : Nat) : Scan TransitValue := do
  withCapacity count
  (fun items => .map (pairUp items)) <$> scanTimes scan (2 * count)

def scanInteger (k : Nat) : Scan TransitValue :=
  (fun n => .integer (Int64.ofNat n)) <$> scanNat k

def scanSigned (k : Nat) : Scan TransitValue :=
  (fun n => .integer (Int64.ofInt (signed k n))) <$> scanNat k

def scanForm (doubles : DoubleBits) (scan : Scan TransitValue) (first : UInt8) :
    Scan TransitValue :=
  let b := first.toNat
  if b ≤ 0x7f then pure (.integer (Int64.ofNat b))
  else if 0xe0 ≤ b then pure (.integer (Int64.ofInt (signed 1 b)))
  else if 0xa0 ≤ b ∧ b ≤ 0xbf then scanStr "fixstr" (b % 32)
  else if 0x90 ≤ b ∧ b ≤ 0x9f then msgpackReadTransitArray scan (b % 16)
  else if b ≤ 0x8f then msgpackReadMap scan (b % 16)
  else
    match b with
    | 0xc0 => pure .nil
    | 0xc2 => pure (.bool false)
    | 0xc3 => pure (.bool true)
    | 0xc4 => scanNat 1 >>= scanBin
    | 0xc5 => scanNat 2 >>= scanBin
    | 0xc6 => scanNat 4 >>= scanBin
    | 0xca => (fun n => .float (doubles.ofBits32 n)) <$> scanNat 4
    | 0xcb => (fun n => .float (doubles.ofBits n)) <$> scanNat 8
    | 0xcc => scanInteger 1
    | 0xcd => scanInteger 2
    | 0xce => scanInteger 4
    | 0xcf => scanInteger 8
    | 0xd0 => scanSigned 1
    | 0xd1 => scanSigned 2
    | 0xd2 => scanSigned 4
    | 0xd3 => scanSigned 8
    | 0xd9 => scanNat 1 >>= scanStr "str8"
    | 0xda => scanNat 2 >>= scanStr "str16"
    | 0xdb => scanNat 4 >>= scanStr "str32"
    | 0xdc => scanNat 2 >>= msgpackReadTransitArray scan
    | 0xdd => scanNat 4 >>= msgpackReadTransitArray scan
    | 0xde => scanNat 2 >>= msgpackReadMap scan
    | 0xdf => scanNat 4 >>= msgpackReadMap scan
    | other => failScan ("Unsupported MessagePack type byte: 0x" ++
        String.ofList [TextCodec.hexDigit (other / 16), TextCodec.hexDigit other])

/-- A value at a depth, with `left` levels of nesting left. -/
def scanLeft (doubles : DoubleBits) : Nat → Nat → Scan TransitValue
  | 0, _ => failScan
      ("MessagePack nesting depth exceeds maximum (" ++ toString maxNestingDepth ++ ")")
  | left + 1, depth => do
    enter depth
    let first ← firstByte
    scanForm doubles (scanLeft doubles left (depth + 1)) first

def scanMessage (doubles : DoubleBits) (bytes : List UInt8) :
    Except ScanFailure (TransitValue × List UInt8) × ScanLog :=
  scanLeft doubles (maxNestingDepth + 1) 0 bytes {}

section

variable {α β : Type} {scan : Scan α} {next : α → Scan β} {buf rest : List UInt8}
  {log log' : ScanLog} {a : α} {failure : ScanFailure}

theorem scan_bind : (scan >>= next) buf log =
    ExceptT.bindCont (fun step => next step.1 step.2) (scan buf log).1 (scan buf log).2 := rfl

theorem scan_bind_ok (h : scan buf log = (.ok (a, rest), log')) :
    (scan >>= next) buf log = next a rest log' := by
  rw [scan_bind, h]
  rfl

theorem scan_bind_error (h : scan buf log = (.error failure, log')) :
    (scan >>= next) buf log = (.error failure, log') := by
  rw [scan_bind, h]
  rfl

end

mutual

def TransitValue.nodes : TransitValue → Nat
  | .array items => 1 + nodesItems items
  | .map entries => 1 + nodesEntries entries
  | _ => 1

def nodesItems : List TransitValue → Nat
  | [] => 0
  | item :: items => item.nodes + nodesItems items

def nodesEntries : List (TransitValue × TransitValue) → Nat
  | [] => 0
  | (key, value) :: entries => key.nodes + value.nodes + nodesEntries entries

end

theorem TransitValue.nodes_pos (v : TransitValue) : 0 < v.nodes := by
  cases v <;> simp only [TransitValue.nodes] <;> omega

theorem nodesItems_eq_foldr (items : List TransitValue) :
    nodesItems items = items.foldr (fun item n => item.nodes + n) 0 := by
  induction items with
  | nil => rfl
  | cons item items ih => rw [nodesItems, ih, List.foldr_cons]

theorem nodesEntries_pairUp_le (items : List TransitValue) :
    nodesEntries (pairUp items) ≤ nodesItems items := by
  induction items using pairUp.induct with
  | case1 key value rest ih =>
    simp only [pairUp, nodesEntries, nodesItems]
    omega
  | case2 items h =>
    rw [pairUp.eq_2 items h]
    exact Nat.zero_le _

theorem nodes_transitArray_le (items : List TransitValue) :
    (transitArray items).nodes ≤ 1 + nodesItems items := by
  unfold transitArray
  split
  · rename_i marker rest
    have hpairs := nodesEntries_pairUp_le rest
    split
    · simp only [TransitValue.nodes, nodesItems]
      omega
    · split
      · split <;> simp only [TransitValue.nodes, nodesItems] <;> omega
      · exact Nat.le_refl _
  · exact Nat.le_refl _

theorem nodes_decodeTransitTaggedString (s : String) :
    (decodeTransitTaggedString s).nodes = 1 := by
  have hgetD : ∀ (parsed : Option TransitValue), (∀ v ∈ parsed, v.nodes = 1) →
      (parsed.getD (.string s)).nodes = 1 := by
    rintro (_ | v) hall
    · rfl
    · exact hall v rfl
  unfold decodeTransitTaggedString
  split
  all_goals first
    | rfl
    | (apply hgetD; simp [TransitValue.nodes])
    | (repeat' split) <;> rfl

def maxCount : Nat := 2 ^ 32 - 1

def remaining {ε α : Type} : Except ε (α × List UInt8) → Nat
  | .ok (_, rest) => rest.length
  | .error _ => 0

/-- The scan does what the reader does. It reserves `slots` and `maxCount` for every byte it
takes, and takes as many bytes as its result weighs, up to `extra`. -/
structure Mirrors {α : Type} (weight : α → Nat) (extra slots : Nat) (scan : Scan α)
    (read : MsgpackReader α) : Prop where
  run : ∀ buf log, ∃ log', scan buf log = ((read buf).mapError .message, log') ∧
    log'.deepest ≤ max log.deepest maxNestingDepth ∧
    log'.reserved + maxCount * remaining (read buf) ≤
      log.reserved + maxCount * buf.length + slots
  left : ∀ buf a rest, read buf = .ok (a, rest) →
    rest <:+ buf ∧ weight a + rest.length ≤ buf.length + extra

namespace Mirrors

variable {α β : Type} {weight : α → Nat} {weight' : β → Nat} {extra slots slots' : Nat}
  {scan : Scan α} {read : MsgpackReader α}

protected theorem pure {a : α} (h : weight a ≤ extra) :
    Mirrors weight extra 0 (pure a) (pure a) where
  run buf log := ⟨log, rfl, Nat.le_max_left _ _, Nat.le_refl _⟩
  left := by
    rintro buf _ _ ⟨⟩
    exact ⟨List.suffix_refl _, by omega⟩

theorem fail (text : String) : Mirrors weight extra slots (failScan text) (throw text) where
  run buf log := ⟨log, rfl, Nat.le_max_left _ _, by
    change log.reserved + maxCount * 0 ≤ _
    omega⟩
  left := by
    rintro buf a rest ⟨⟩

theorem mono (h : Mirrors weight extra slots scan read) (hslots : slots ≤ slots') :
    Mirrors weight extra slots' scan read where
  run buf log := by
    obtain ⟨log', hscan, hdeep, hreserved⟩ := h.run buf log
    exact ⟨log', hscan, hdeep, by omega⟩
  left := h.left

theorem capacity (count : Nat) :
    Mirrors (fun _ => 0) 0 count (withCapacity count) (pure ()) where
  run buf log := ⟨_, rfl, Nat.le_max_left _ _, by
    change log.reserved + count + maxCount * buf.length ≤ _
    omega⟩
  left := by
    rintro buf _ _ ⟨⟩
    exact ⟨List.suffix_refl _, by omega⟩

theorem bytes (n : Nat) : Mirrors (fun _ => 0) 0 0 (scanBytes n) (takeBytes n) where
  run buf log := by
    by_cases hshort : buf.length < n
    · have hread : takeBytes n buf = .error _ := if_pos hshort
      refine ⟨log, ?_, Nat.le_max_left _ _, ?_⟩
      · rw [hread]
        exact scan_bind_error (if_pos hshort)
      · rw [hread]
        simp [remaining]
    · have hread : takeBytes n buf = .ok (buf.take n, buf.drop n) := if_neg hshort
      refine ⟨log, ?_, Nat.le_max_left _ _, ?_⟩
      · rw [hread]
        exact (scan_bind_ok (if_neg hshort)).trans (if_pos (Nat.le_of_not_lt hshort))
      · rw [hread, remaining, List.length_drop]
        have hshorter := Nat.mul_le_mul_left maxCount (Nat.sub_le buf.length n)
        omega
  left buf a rest h := by
    by_cases hshort : buf.length < n
    · cases (if_pos hshort).symm.trans h
    · cases (if_neg hshort).symm.trans h
      exact ⟨List.drop_suffix n buf, by simp⟩

theorem bind {next : α → Scan β} {next' : α → MsgpackReader β}
    (h : Mirrors weight 0 slots scan read)
    (hnext : ∀ a, (∃ buf rest, read buf = .ok (a, rest)) →
      Mirrors weight' (weight a + extra) slots' (next a) (next' a)) :
    Mirrors weight' extra (slots + slots') (scan >>= next) (read >>= next') where
  run buf log := by
    obtain ⟨log₁, hscan, hdeep, hslots⟩ := h.run buf log
    cases hread : read buf with
    | error text =>
      rw [hread] at hscan hslots
      have hstop : (read >>= next') buf = .error text := by rw [bind_apply, hread]; rfl
      refine ⟨log₁, ?_, hdeep, ?_⟩
      · rw [hstop]
        exact scan_bind_error hscan
      · rw [hstop]
        simp only [remaining] at hslots ⊢
        omega
    | ok result =>
      obtain ⟨a, rest⟩ := result
      rw [hread] at hscan hslots
      obtain ⟨log₂, hscan₂, hdeep₂, hslots₂⟩ := (hnext a ⟨buf, rest, hread⟩).run rest log₁
      have hgo : (read >>= next') buf = next' a rest := by rw [bind_apply, hread]; rfl
      refine ⟨log₂, ?_, by omega, ?_⟩
      · rw [hgo, ← hscan₂]
        exact scan_bind_ok hscan
      · rw [hgo]
        simp only [remaining] at hslots
        omega
  left buf b rest hread := by
    rw [bind_apply] at hread
    obtain ⟨⟨a, rest₁⟩, hfirst, hthen⟩ := Unification.bind_eq_ok hread
    obtain ⟨hsuffix, hweight⟩ := h.left buf a rest₁ hfirst
    obtain ⟨hsuffix', hweight'⟩ := (hnext a ⟨buf, rest₁, hfirst⟩).left rest₁ b rest hthen
    exact ⟨hsuffix'.trans hsuffix, by omega⟩

theorem map {g : α → β} (h : Mirrors weight 0 slots scan read)
    (hg : ∀ a, weight' (g a) ≤ weight a + extra) :
    Mirrors weight' extra slots (g <$> scan) (g <$> read) := by
  rw [map_eq_pure_bind, map_eq_pure_bind]
  exact h.bind fun a _ => .pure (hg a)

theorem times (h : Mirrors weight 0 0 scan read) (n : Nat) :
    Mirrors (List.foldr (fun a n => weight a + n) 0) 0 0 (scanTimes scan n)
      (Reader.times read n) := by
  induction n with
  | zero => exact .pure (Nat.le_refl _)
  | succ n ih =>
    -- the first item, then the others, then the list of both
    change Mirrors _ 0 (0 + 0)
      (scan >>= fun a => scanTimes scan n >>= fun as => Pure.pure (a :: as))
      (read >>= fun a => Reader.times read n >>= fun as => Pure.pure (a :: as))
    refine h.bind fun a _ => ih.bind fun as _ => .pure ?_
    rw [List.foldr_cons]
    omega

theorem nat (k : Nat) : Mirrors (fun _ => 0) 0 0 (scanNat k) (readNat k) :=
  (bytes k).map fun _ => Nat.le_refl 0

variable {scan : Scan TransitValue} {read : MsgpackReader TransitValue} {count : Nat}

theorem leaf {g : Nat → TransitValue} (hg : ∀ n, (g n).nodes ≤ 1) (k : Nat) :
    Mirrors TransitValue.nodes 1 maxCount (g <$> scanNat k) (g <$> readNat k) :=
  ((nat k).map hg).mono (Nat.zero_le _)

theorem str (form : String) (len : Nat) :
    Mirrors TransitValue.nodes 1 maxCount (scanStr form len) (readStr form len) := by
  refine ((bytes len).bind fun text _ => ?_).mono (Nat.zero_add 0 ▸ Nat.zero_le maxCount)
  unfold decodeStr
  cases fromUtf8 text with
  | none => exact .fail _
  | some s => exact .pure (nodes_decodeTransitTaggedString s).le

theorem bin (len : Nat) : Mirrors TransitValue.nodes 1 maxCount (scanBin len) (readBin len) :=
  ((bytes len).bind fun _ _ => .pure (Nat.le_refl 1)).mono (Nat.zero_le _)

/-- A collection reserves as many slots as its header says, and no more for its items than their
bytes pay for. -/
theorem collection {g : List TransitValue → TransitValue}
    (hg : ∀ items, (g items).nodes ≤ 1 + nodesItems items)
    (h : Mirrors TransitValue.nodes 0 0 scan read) (hcount : count ≤ maxCount) (n : Nat) :
    Mirrors TransitValue.nodes 1 maxCount (withCapacity count >>= fun _ => g <$> scanTimes scan n)
      (g <$> Reader.times read n) := by
  have hitems : Mirrors TransitValue.nodes 1 0 (g <$> scanTimes scan n)
      (g <$> Reader.times read n) := (h.times n).map fun items => by
    rw [← nodesItems_eq_foldr, Nat.add_comm]
    exact hg items
  rw [← pure_bind () fun _ => g <$> Reader.times read n]
  exact ((capacity count).bind fun _ _ => by rwa [Nat.zero_add]).mono hcount

theorem array (h : Mirrors TransitValue.nodes 0 0 scan read) (hcount : count ≤ maxCount) :
    Mirrors TransitValue.nodes 1 maxCount (msgpackReadTransitArray scan count)
      (readTransitArray read count) :=
  collection nodes_transitArray_le h hcount count

theorem entries (h : Mirrors TransitValue.nodes 0 0 scan read) (hcount : count ≤ maxCount) :
    Mirrors TransitValue.nodes 1 maxCount (msgpackReadMap scan count) (readMap read count) := by
  refine collection (fun items => ?_) h hcount (2 * count)
  have hpairs := nodesEntries_pairUp_le items
  rw [TransitValue.nodes]
  omega

theorem withLength {k : Nat} {next : Nat → Scan TransitValue}
    {next' : Nat → MsgpackReader TransitValue}
    (h : ∀ n, n < 256 ^ k → Mirrors TransitValue.nodes 1 maxCount (next n) (next' n)) :
    Mirrors TransitValue.nodes 1 maxCount (scanNat k >>= next) (readNat k >>= next') := by
  refine ((nat k).bind fun n hn => ?_).mono (Nat.zero_add maxCount).le
  rw [Nat.zero_add]
  apply h
  obtain ⟨buf, rest, hread⟩ := hn
  rw [readNat, ← bind_pure_comp, bind_apply] at hread
  obtain ⟨⟨text, rest'⟩, htake, heq⟩ := Unification.bind_eq_ok hread
  cases heq
  by_cases hshort : buf.length < k
  · cases (if_pos hshort).symm.trans htake
  · cases (if_neg hshort).symm.trans htake
    have hlt := ofBigEndian_lt (buf.take k)
    rwa [List.length_take, Nat.min_eq_left (Nat.le_of_not_lt hshort)] at hlt

variable {doubles : DoubleBits}

theorem form (h : Mirrors TransitValue.nodes 0 0 scan read) (first : UInt8) :
    Mirrors TransitValue.nodes 1 maxCount (scanForm doubles scan first)
      (readForm doubles read first) := by
  have hfit : ∀ k ≤ 4, ∀ n < 256 ^ k, n ≤ maxCount := fun k hk n hn =>
    Nat.le_sub_one_of_lt (hn.trans_le (Nat.pow_le_pow_right (by decide) hk))
  have hplain : ∀ v : TransitValue, v.nodes ≤ 1 →
      Mirrors TransitValue.nodes 1 maxCount (Pure.pure v) (Pure.pure v) :=
    fun v hv => (Mirrors.pure hv).mono (Nat.zero_le _)
  unfold scanForm readForm
  generalize first.toNat = b
  dsimp only
  split_ifs
  · exact hplain _ (Nat.le_refl 1)
  · exact hplain _ (Nat.le_refl 1)
  · exact str _ _
  · exact array h (by unfold maxCount; omega)
  · exact entries h (by unfold maxCount; omega)
  · -- the bytes that name their form one by one
    have hlo : 192 ≤ b := by omega
    have hhi : b < 224 := by omega
    interval_cases b
    all_goals first
      | exact .fail _
      | exact hplain _ (Nat.le_refl 1)
      | exact leaf (by intro; exact Nat.le_refl 1) _
      | exact withLength fun n _ => bin n
      | exact withLength fun n _ => str _ n
      | exact withLength fun n hn => array h (hfit _ (by decide) n hn)
      | exact withLength fun n hn => entries h (hfit _ (by decide) n hn)

theorem value {left depth : Nat} (hdepth : depth + left = maxNestingDepth + 1) :
    Mirrors TransitValue.nodes 0 0 (scanLeft doubles left depth) (readLeft doubles left) := by
  induction left generalizing depth with
  | zero => exact .fail _
  | succ left ih =>
    have ih := @ih (depth + 1) (by omega)
    refine ⟨fun buf log => ?_, fun buf v rest hread => ?_⟩
    · cases buf with
      | nil => exact ⟨log, scan_bind_error rfl, Nat.le_max_left _ _, Nat.le_refl _⟩
      | cons first rest =>
        obtain ⟨log', hscan, hdeep, hreserved⟩ := (ih.form first).run rest
          { log with deepest := max log.deepest depth }
        refine ⟨log', ?_, ?_, ?_⟩
        · exact (scan_bind_ok rfl).trans ((scan_bind_ok rfl).trans hscan)
        · dsimp only at hdeep
          omega
        · rw [List.length_cons, Nat.mul_succ]
          exact hreserved.trans (by dsimp only; omega)
    · cases buf with
      | nil => cases hread
      | cons first buf =>
        obtain ⟨hsuffix, hweight⟩ := (ih.form first).left buf v rest hread
        exact ⟨hsuffix.trans (List.suffix_cons first buf), hweight⟩

end Mirrors

section Messages

variable (doubles : DoubleBits) (bytes : List UInt8)

/-- On every input the decoder answers or fails and never panics, goes down to the limit at most,
and a value that it answers took at least one byte and no more nodes than bytes. -/
theorem scanMessage_safe :
    (scanMessage doubles bytes).1 =
        (msgpackReadValueBounded doubles bytes 0).mapError .message ∧
      (scanMessage doubles bytes).1 ≠ .error .panic ∧
      (scanMessage doubles bytes).2.deepest ≤ maxNestingDepth ∧
      ∀ v rest, (scanMessage doubles bytes).1 = .ok (v, rest) →
        ∃ used, used ≠ [] ∧ bytes = used ++ rest ∧ v.nodes ≤ used.length := by
  obtain ⟨log, hscan, hdeep, -⟩ := (Mirrors.value (Nat.zero_add _)).run bytes {}
  have hsame : (scanMessage doubles bytes).1 =
      (msgpackReadValueBounded doubles bytes 0).mapError .message := congrArg Prod.fst hscan
  have hdepth : (scanMessage doubles bytes).2.deepest ≤ maxNestingDepth := by
    rw [scanMessage, hscan]
    exact hdeep.trans (Nat.zero_max _).le
  refine ⟨hsame, ?_, hdepth, ?_⟩
  · rw [hsame]
    cases msgpackReadValueBounded doubles bytes 0 with
    | error text => simp [Except.mapError]
    | ok result => simp [Except.mapError]
  · intro v rest hok
    have hread : msgpackReadValueBounded doubles bytes 0 = .ok (v, rest) := by
      cases hresult : msgpackReadValueBounded doubles bytes 0 with
      | error text => rw [hsame, hresult] at hok; cases hok
      | ok result => rw [hsame, hresult] at hok; cases hok; rfl
    obtain ⟨⟨used, rfl⟩, hnodes⟩ :=
      (Mirrors.value (Nat.zero_add _)).left bytes v rest hread
    have hsome := v.nodes_pos
    rw [List.length_append] at hnodes
    refine ⟨used, ?_, rfl, by omega⟩
    rintro rfl
    simp at hnodes
    omega

theorem reserved_array32 :
    (scanMessage doubles [0xdd, 0xff, 0xff, 0xff, 0xff]).2.reserved = maxCount := by
  rfl

/-- The slots reserved are at most a constant times the length of the input; the constant cannot
be below a fifth of the largest count. -/
theorem reserved_le_mul :
    ∃ k, (∀ bytes, (scanMessage doubles bytes).2.reserved ≤ k * bytes.length) ∧
      ∀ k', (∀ bytes, (scanMessage doubles bytes).2.reserved ≤ k' * bytes.length) →
        maxCount ≤ 5 * k' := by
  refine ⟨maxCount, fun bytes => ?_, fun k' h => ?_⟩
  · obtain ⟨log, hscan, -, hreserved⟩ := (Mirrors.value (Nat.zero_add _)).run bytes {}
    rw [scanMessage, hscan]
    dsimp only at hreserved ⊢
    omega
  · have hfive := h [0xdd, 0xff, 0xff, 0xff, 0xff]
    rwa [reserved_array32, Nat.mul_comm] at hfive

end Messages

end PgMentat
