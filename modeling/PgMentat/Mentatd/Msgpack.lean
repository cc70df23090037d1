import PgMentat.Mentatd.Transit
import PgMentat.Lib.BigEndian
import PgMentat.Lib.Reader

namespace PgMentat

open BigEndian Reader

structure DoubleBits where
  toBits : F64 → Nat
  ofBits : Nat → F64
  ofBits32 : Nat → F64

def utf8 (s : String) : List UInt8 := s.toUTF8.data.toList

def msgpackWriteArrayLen (len : Nat) : List UInt8 :=
  if len ≤ 15 then [0x90 ||| UInt8.ofNat len]
  else if len ≤ 0xFFFF then 0xdc :: bigEndian 2 len
  else 0xdd :: bigEndian 4 len

def msgpackWriteStr (s : String) : List UInt8 :=
  let bytes := utf8 s
  let len := bytes.length
  (if len ≤ 31 then [0xa0 ||| UInt8.ofNat len]
  else if len ≤ 0xFF then 0xd9 :: bigEndian 1 len
  else if len ≤ 0xFFFF then 0xda :: bigEndian 2 len
  else 0xdb :: bigEndian 4 len) ++ bytes

def msgpackWriteU64 (val : Nat) : List UInt8 :=
  if val ≤ 127 then bigEndian 1 val
  else if val ≤ 0xFF then 0xcc :: bigEndian 1 val
  else if val ≤ 0xFFFF then 0xcd :: bigEndian 2 val
  else if val ≤ 0xFFFFFFFF then 0xce :: bigEndian 4 val
  else 0xcf :: bigEndian 8 val

/-- The last `k` bytes of a signed number. -/
def signedBytes (k : Nat) (val : Int) : List UInt8 := bigEndian k (val % (256 ^ k : Nat)).toNat

def msgpackWriteI64 (n : Int64) : List UInt8 :=
  let val := n.toInt
  if 0 ≤ val then msgpackWriteU64 val.toNat
  else if -32 ≤ val then signedBytes 1 val
  else if -2 ^ 7 ≤ val then 0xd0 :: signedBytes 1 val
  else if -2 ^ 15 ≤ val then 0xd1 :: signedBytes 2 val
  else if -2 ^ 31 ≤ val then 0xd2 :: signedBytes 4 val
  else 0xd3 :: signedBytes 8 val

mutual

def valueToMsgpack (doubles : DoubleBits) : ResponseValue → List UInt8
  | .nil => [0xc0]
  | .boolean b => [if b then 0xc3 else 0xc2]
  | .string s => msgpackWriteStr (escapeTilde s)
  | .integer n => msgpackWriteI64 n
  | .float f => 0xcb :: bigEndian 8 (doubles.toBits f)
  | .keyword k => msgpackWriteStr ("~:" ++ k)
  | .instant micros => msgpackWriteStr ("~m" ++ toString (micros / 1000).toInt)
  | .uuid u => msgpackWriteStr ("~u" ++ u)
  | .list items =>
    msgpackWriteArrayLen 2 ++ msgpackWriteStr "~#list" ++ msgpackWriteArrayLen items.length ++
      itemsToMsgpack doubles items
  | .vector items => msgpackWriteArrayLen items.length ++ itemsToMsgpack doubles items
  | .map entries =>
    msgpackWriteArrayLen (1 + entries.length * 2) ++ msgpackWriteStr "^ " ++
      entriesToMsgpack doubles entries
  | .dbSnapshot dbId basisT =>
    msgpackWriteArrayLen 2 ++ msgpackWriteStr "~#db" ++ msgpackWriteArrayLen 2 ++
      msgpackWriteStr dbId ++ msgpackWriteI64 basisT

def itemsToMsgpack (doubles : DoubleBits) : List ResponseValue → List UInt8
  | [] => []
  | item :: items => valueToMsgpack doubles item ++ itemsToMsgpack doubles items

def entriesToMsgpack (doubles : DoubleBits) : List (ResponseValue × ResponseValue) → List UInt8
  | [] => []
  | (key, value) :: entries =>
    valueToMsgpack doubles key ++ valueToMsgpack doubles value ++ entriesToMsgpack doubles entries

end

abbrev MsgpackReader (α : Type) := Reader UInt8 String α

def takeBytes (n : Nat) : MsgpackReader (List UInt8) :=
  take (fun needed available =>
    "Need " ++ toString needed ++ " bytes but only " ++ toString available ++ " available") n

def readNat (k : Nat) : MsgpackReader Nat := ofBigEndian <$> takeBytes k

def fromUtf8 (bytes : List UInt8) : Option String := String.fromUTF8? ⟨bytes.toArray⟩

/-- How many bytes follow a lead byte, and the range of the first of them. -/
def utf8Lead (b : Nat) : Option (Nat × Nat × Nat) :=
  if 0xc2 ≤ b ∧ b ≤ 0xdf then some (1, 0x80, 0xbf)
  else if b = 0xe0 then some (2, 0xa0, 0xbf)
  else if b = 0xed then some (2, 0x80, 0x9f)
  else if 0xe1 ≤ b ∧ b ≤ 0xef then some (2, 0x80, 0xbf)
  else if b = 0xf0 then some (3, 0x90, 0xbf)
  else if 0xf1 ≤ b ∧ b ≤ 0xf3 then some (3, 0x80, 0xbf)
  else if b = 0xf4 then some (3, 0x80, 0x8f)
  else none

/-- The text of the `Utf8Error`, with the character at `start` read up to `seen` bytes and `pending`
bytes of it to follow. -/
def utf8Error (start seen pending lo hi : Nat) : List UInt8 → String
  | [] => "incomplete utf-8 byte sequence from index " ++ toString start
  | byte :: rest =>
    let b := byte.toNat
    if pending = 0 then
      if b < 0x80 then utf8Error (start + 1) 0 0 0 0 rest
      else match utf8Lead b with
        | some (pending, lo, hi) => utf8Error start 1 pending lo hi rest
        | none => "invalid utf-8 sequence of 1 bytes from index " ++ toString start
    else if b < lo ∨ hi < b then
      "invalid utf-8 sequence of " ++ toString seen ++ " bytes from index " ++ toString start
    else if pending = 1 then utf8Error (start + seen + 1) 0 0 0 0 rest
    else utf8Error start (seen + 1) (pending - 1) 0x80 0xbf rest

def invalidUtf8 (form : String) (bytes : List UInt8) : String :=
  "Invalid UTF-8 in " ++ form ++ ": " ++ utf8Error 0 0 0 0 0 bytes

def decodeStr (form : String) (bytes : List UInt8) : MsgpackReader TransitValue :=
  match fromUtf8 bytes with
  | some s => pure (decodeTransitTaggedString s)
  | none => throw (invalidUtf8 form bytes)

def readStr (form : String) (len : Nat) : MsgpackReader TransitValue :=
  takeBytes len >>= decodeStr form

/-- Bytes are shown in hexadecimal. -/
def readBin (len : Nat) : MsgpackReader TransitValue := do
  let bytes ← takeBytes len
  return .string (String.ofList ('0' :: 'x' :: TextCodec.hexEncode bytes))

/-- A trailing key without a value is dropped. -/
def pairUp {α : Type} : List α → List (α × α)
  | key :: value :: rest => (key, value) :: pairUp rest
  | _ => []

/-- The markers are looked for among the items that were already read. -/
def transitArray (items : List TransitValue) : TransitValue :=
  match items with
  | .string marker :: rest =>
    if marker = "^ " then .map (pairUp rest)
    else
      match rest with
      | [.array inner] =>
        if marker = "~#list" ∨ marker = "~#set" then .array inner else .array items
      | _ => .array items
  | _ => .array items

def readTransitArray (read : MsgpackReader TransitValue) (count : Nat) :
    MsgpackReader TransitValue :=
  transitArray <$> times read count

def readMap (read : MsgpackReader TransitValue) (count : Nat) : MsgpackReader TransitValue :=
  (fun items => .map (pairUp items)) <$> times read (2 * count)

def readInteger (k : Nat) : MsgpackReader TransitValue :=
  (fun n => .integer (Int64.ofNat n)) <$> readNat k

def readSigned (k : Nat) : MsgpackReader TransitValue :=
  (fun n => .integer (Int64.ofInt (signed k n))) <$> readNat k

/-- What follows the first byte; `read` is the reader one level deeper. -/
def readForm (doubles : DoubleBits) (read : MsgpackReader TransitValue) (first : UInt8) :
    MsgpackReader TransitValue :=
  let b := first.toNat
  if b ≤ 0x7f then pure (.integer (Int64.ofNat b))
  else if 0xe0 ≤ b then pure (.integer (Int64.ofInt (signed 1 b)))
  else if 0xa0 ≤ b ∧ b ≤ 0xbf then readStr "fixstr" (b % 32)
  else if 0x90 ≤ b ∧ b ≤ 0x9f then readTransitArray read (b % 16)
  else if b ≤ 0x8f then readMap read (b % 16)
  else
    match b with
    | 0xc0 => pure .nil
    | 0xc2 => pure (.bool false)
    | 0xc3 => pure (.bool true)
    | 0xc4 => readNat 1 >>= readBin
    | 0xc5 => readNat 2 >>= readBin
    | 0xc6 => readNat 4 >>= readBin
    | 0xca => (fun n => .float (doubles.ofBits32 n)) <$> readNat 4
    | 0xcb => (fun n => .float (doubles.ofBits n)) <$> readNat 8
    | 0xcc => readInteger 1
    | 0xcd => readInteger 2
    | 0xce => readInteger 4
    | 0xcf => readInteger 8
    | 0xd0 => readSigned 1
    | 0xd1 => readSigned 2
    | 0xd2 => readSigned 4
    | 0xd3 => readSigned 8
    | 0xd9 => readNat 1 >>= readStr "str8"
    | 0xda => readNat 2 >>= readStr "str16"
    | 0xdb => readNat 4 >>= readStr "str32"
    | 0xdc => readNat 2 >>= readTransitArray read
    | 0xdd => readNat 4 >>= readTransitArray read
    | 0xde => readNat 2 >>= readMap read
    | 0xdf => readNat 4 >>= readMap read
    | other => throw ("Unsupported MessagePack type byte: 0x" ++
        String.ofList [TextCodec.hexDigit (other / 16), TextCodec.hexDigit other])

/-- A value with `left` levels of nesting left. -/
def readLeft (doubles : DoubleBits) : Nat → MsgpackReader TransitValue
  | 0 => throw ("MessagePack nesting depth exceeds maximum (" ++ toString maxNestingDepth ++ ")")
  | left + 1 => fun buf =>
    match buf with
    | [] => .error "Unexpected end of input"
    | first :: rest => readForm doubles (readLeft doubles left) first rest

def msgpackReadValueBounded (doubles : DoubleBits) (buf : List UInt8) (depth : Nat) :
    Except String (TransitValue × List UInt8) :=
  readLeft doubles (maxNestingDepth + 1 - depth) buf

section Forms

variable {doubles : DoubleBits} {left : Nat} {read : MsgpackReader TransitValue} {first : UInt8}
  {text : List UInt8} {v : TransitValue}

theorem reads_readLeft (h : Reads (readForm doubles (readLeft doubles left) first) text v) :
    Reads (readLeft doubles (left + 1)) (first :: text) v := h

theorem reads_readNat (k n : Nat) : Reads (readNat k) (bigEndian k n) (n % 256 ^ k) := by
  have htake := reads_take (ε := String) (fun needed available =>
    "Need " ++ toString needed ++ " bytes but only " ++ toString available ++ " available")
    (bigEndian k n)
  rw [length_bigEndian] at htake
  rw [← ofBigEndian_bigEndian]
  exact htake.map ofBigEndian

theorem reads_readNat_of_lt {k n : Nat} (h : n < 256 ^ k) :
    Reads (readNat k) (bigEndian k n) n := by
  have hread := reads_readNat k n
  rwa [Nat.mod_eq_of_lt h] at hread

theorem fromUtf8_utf8 (s : String) : fromUtf8 (utf8 s) = some s := by
  have hvalid : ByteArray.IsValidUTF8 ⟨(utf8 s).toArray⟩ := s.isValidUTF8
  rw [fromUtf8, String.fromUTF8?, dif_pos hvalid]
  rfl

theorem reads_readStr (form s : String) :
    Reads (readStr form (utf8 s).length) (utf8 s) (decodeTransitTaggedString s) := by
  have hbytes : Reads (takeBytes (utf8 s).length) (utf8 s) (utf8 s) := reads_take _ (utf8 s)
  have hdecode : Reads (decodeStr form (utf8 s)) [] (decodeTransitTaggedString s) := by
    rw [decodeStr, fromUtf8_utf8]
    exact .pure _
  have hread := hbytes.bind hdecode
  rwa [List.append_nil] at hread

theorem toNat_or_ofNat {tag bits : Nat} (htag : tag = 0x90 ∧ bits = 16 ∨ tag = 0xa0 ∧ bits = 32)
    {len : Nat} (h : len < bits) : (UInt8.ofNat tag ||| UInt8.ofNat len).toNat = tag + len := by
  rcases htag with ⟨rfl, rfl⟩ | ⟨rfl, rfl⟩
  · have hall : ∀ n : Fin 16, (UInt8.ofNat 0x90 ||| UInt8.ofNat n).toNat = 0x90 + n := by decide
    exact hall ⟨len, h⟩
  · have hall : ∀ n : Fin 32, (UInt8.ofNat 0xa0 ||| UInt8.ofNat n).toNat = 0xa0 + n := by decide
    exact hall ⟨len, h⟩

theorem readForm_fixstr {len : Nat} (h : len < 32) :
    readForm doubles read (0xa0 ||| UInt8.ofNat len) = readStr "fixstr" len := by
  have hbyte : (0xa0 ||| UInt8.ofNat len).toNat = 0xa0 + len :=
    toNat_or_ofNat (.inr ⟨rfl, rfl⟩) h
  unfold readForm
  simp only [hbyte]
  rw [if_neg (by omega), if_neg (by omega), if_pos (by omega)]
  rw [Nat.add_mod, Nat.mod_eq_of_lt h]
  simp [Nat.mod_eq_of_lt h]

theorem readForm_fixarray {len : Nat} (h : len < 16) :
    readForm doubles read (0x90 ||| UInt8.ofNat len) = readTransitArray read len := by
  have hbyte : (0x90 ||| UInt8.ofNat len).toNat = 0x90 + len :=
    toNat_or_ofNat (.inl ⟨rfl, rfl⟩) h
  unfold readForm
  simp only [hbyte]
  rw [if_neg (by omega), if_neg (by omega), if_neg (by omega), if_pos (by omega)]
  rw [Nat.add_mod, Nat.mod_eq_of_lt h]
  simp [Nat.mod_eq_of_lt h]

theorem reads_msgpackWriteStr {s : String} (h : (utf8 s).length < 2 ^ 32) :
    Reads (readLeft doubles (left + 1)) (msgpackWriteStr s) (decodeTransitTaggedString s) := by
  unfold msgpackWriteStr
  dsimp only
  split
  · rename_i hlen
    apply reads_readLeft
    rw [readForm_fixstr (by omega)]
    exact reads_readStr _ s
  · split
    · exact reads_readLeft ((reads_readNat_of_lt (by omega)).bind (reads_readStr _ s))
    · split
      · exact reads_readLeft ((reads_readNat_of_lt (by omega)).bind (reads_readStr _ s))
      · exact reads_readLeft ((reads_readNat_of_lt (by omega)).bind (reads_readStr _ s))

theorem reads_msgpackWriteArrayLen {len : Nat} (hlen : len < 2 ^ 32)
    (h : Reads (readTransitArray (readLeft doubles left) len) text v) :
    Reads (readLeft doubles (left + 1)) (msgpackWriteArrayLen len ++ text) v := by
  unfold msgpackWriteArrayLen
  split
  · apply reads_readLeft
    rw [readForm_fixarray (by omega)]
    exact h
  · split
    · exact reads_readLeft ((reads_readNat_of_lt (by omega)).bind h)
    · exact reads_readLeft ((reads_readNat_of_lt (by omega)).bind h)

theorem reads_readInteger {k m : Nat} (h : m < 256 ^ k) :
    Reads (readInteger k) (bigEndian k m) (.integer (Int64.ofNat m)) :=
  (reads_readNat_of_lt h).map _

theorem reads_msgpackWriteU64 {m : Nat} (h : m < 2 ^ 64) :
    Reads (readLeft doubles (left + 1)) (msgpackWriteU64 m) (.integer (Int64.ofNat m)) := by
  unfold msgpackWriteU64
  split
  · rename_i hm
    have hbyte : (UInt8.ofNat m).toNat = m := by
      rw [UInt8.toNat_ofNat']
      omega
    have hform : readForm doubles (readLeft doubles left) (UInt8.ofNat m) =
        pure (.integer (Int64.ofNat m)) := by
      unfold readForm
      simp only [hbyte]
      rw [if_pos hm]
    apply reads_readLeft
    rw [hform]
    exact .pure _
  · split
    · exact reads_readLeft (reads_readInteger (by omega))
    · split
      · exact reads_readLeft (reads_readInteger (by omega))
      · split
        · exact reads_readLeft (reads_readInteger (by omega))
        · exact reads_readLeft (reads_readInteger (by omega))

theorem reads_readSigned {k : Nat} {m : Int} (hlo : -(256 ^ k : Nat) ≤ 2 * m)
    (hhi : 2 * m < (256 ^ k : Nat)) :
    Reads (readSigned k) (signedBytes k m) (.integer (Int64.ofInt m)) := by
  have hpos : 0 < 256 ^ k := Nat.pow_pos (by decide)
  have hlt : (m % (256 ^ k : Nat)).toNat < 256 ^ k := by
    have hmod := Int.emod_lt_of_pos m (show (0 : Int) < (256 ^ k : Nat) by omega)
    omega
  have hread := (reads_readNat_of_lt hlt).map fun n =>
    TransitValue.integer (Int64.ofInt (signed k n))
  rw [signed_emod hlo hhi] at hread
  exact hread

theorem reads_msgpackWriteI64 (n : Int64) :
    Reads (readLeft doubles (left + 1)) (msgpackWriteI64 n) (.integer n) := by
  have hlo : -2 ^ 63 ≤ n.toInt := Int64.le_toInt n
  have hhi : n.toInt < 2 ^ 63 := Int64.toInt_lt n
  have hself : Int64.ofInt n.toInt = n := Int64.ofInt_toInt n
  unfold msgpackWriteI64
  dsimp only
  split
  · rename_i hn
    have hnat : Int64.ofNat n.toInt.toNat = n := by
      rw [← Int64.ofInt_eq_ofNat, Int.toNat_of_nonneg hn, hself]
    have hread : Reads (readLeft doubles (left + 1)) (msgpackWriteU64 n.toInt.toNat)
        (.integer (Int64.ofNat n.toInt.toNat)) := reads_msgpackWriteU64 (by omega)
    rwa [hnat] at hread
  · generalize n.toInt = m at *
    subst hself
    split
    · -- a negative fixint is the byte itself
      have hbyte : (UInt8.ofNat (m % (256 ^ 1 : Nat)).toNat).toNat =
          (m % (256 ^ 1 : Nat)).toNat := by
        rw [UInt8.toNat_ofNat']
        omega
      have hform : readForm doubles (readLeft doubles left)
          (UInt8.ofNat (m % (256 ^ 1 : Nat)).toNat) = pure (.integer (Int64.ofInt m)) := by
        unfold readForm
        simp only [hbyte]
        rw [if_neg (by omega), if_pos (by omega), signed_emod (by omega) (by omega)]
      apply reads_readLeft
      rw [hform]
      exact .pure _
    · split
      · exact reads_readLeft (reads_readSigned (by omega) (by omega))
      · split
        · exact reads_readLeft (reads_readSigned (by omega) (by omega))
        · split
          · exact reads_readLeft (reads_readSigned (by omega) (by omega))
          · exact reads_readLeft (reads_readSigned (by omega) (by omega))

end Forms

end PgMentat
