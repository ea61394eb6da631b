import DssPrime.Archive.ArWriter

/-!
# Reading a static archive

The model of `readArArchive` (`ffi/binary_readers/ar_reader.cpp`): a walk over the member headers,
then the long names, then the symbol index, in the System V or the BSD shape.  A refusal keeps the
reason and the offset or name its diagnostic states.

The walk advances by a header at least, so as many turns as there are bytes are enough.
-/

namespace DssPrime.Ar

inductive ReadRefusal where
  | badMagic
  | headerPastEnd (off : ℕ)
  | noTrailer (off : ℕ)
  | badSize (off : ℕ)
  | dataPastEnd (off size : ℕ)
  | inlineLengthOverflow (name : List UInt8)
  | inlineTooLong (off n size : ℕ)
  | unsupported64 (name : List UInt8)
  | unknownSymdef (name : List UInt8)
  | unterminatedLongName (start : ℕ)
  | longNameOverflow (name : List UInt8)
  | noLongNames (name : List UInt8)
  | badLongName (n : ℕ)
  | bothArmaps
  | noSuchMember (name : List UInt8) (off : ℕ)
  | armapTruncated
  | nameUnterminated (pos : ℕ)
  | ranlibMisaligned (bytes : ℕ)
  /-- A BSD entry whose name lies outside the string table. -/
  | strxPastEnd (i strx : ℕ)

def isDigit (c : UInt8) : Bool := 0x30 ≤ c && c ≤ 0x39

def isPad (c : UInt8) : Bool := c == space || c == 0

/-- The number some digits state, unless it needs more than 64 bits. -/
def decimalValue (digits : List UInt8) : Option ℕ :=
  digits.foldlM (fun v c =>
    let d := c.toNat - 0x30
    if v > (2 ^ 64 - 1 - d) / 10 then none else some (v * 10 + d)) 0

def parseAsciiDecimalField (bytes : List UInt8) : Option ℕ :=
  let body := bytes.dropWhile (· == space)
  let digits := body.takeWhile isDigit
  match decimalValue digits with
  | none => none
  | some v => if !digits.isEmpty && (body.dropWhile isDigit).all isPad then some v else none

def rstripNameField (bytes : List UInt8) : List UInt8 := bytes.rdropWhile isPad

def allDigits (s : List UInt8) : Bool := !s.isEmpty && s.all isDigit

/-- A 32-bit word, most significant byte first. -/
def readU32BE (b : List UInt8) (off : ℕ) : ℕ :=
  (b.getD off 0).toNat * 2 ^ 24 + (b.getD (off + 1) 0).toNat * 2 ^ 16 +
    (b.getD (off + 2) 0).toNat * 2 ^ 8 + (b.getD (off + 3) 0).toNat

/-- A 32-bit word, least significant byte first. -/
def readU32LE (b : List UInt8) (off : ℕ) : ℕ :=
  (b.getD off 0).toNat + (b.getD (off + 1) 0).toNat * 2 ^ 8 +
    (b.getD (off + 2) 0).toNat * 2 ^ 16 + (b.getD (off + 3) 0).toNat * 2 ^ 24

inductive MemberKind where
  | object
  | sysVArmap
  | gnuLongNames
  | bsdArmap
  | unsupported64
  | unknownSymdef
  deriving DecidableEq

def symdef : List UInt8 := [0x5F, 0x5F, 0x2E, 0x53, 0x59, 0x4D, 0x44, 0x45, 0x46]

def sorted : List UInt8 := [0x20, 0x53, 0x4F, 0x52, 0x54, 0x45, 0x44]

def suffix64 : List UInt8 := [0x5F, 0x36, 0x34]

def sym64 : List UInt8 := [0x2F, 0x53, 0x59, 0x4D, 0x36, 0x34, 0x2F]

def bsdInline : List UInt8 := [0x23, 0x31, 0x2F]

def classifyMemberName (name : List UInt8) : MemberKind :=
  if name = [slash] then .sysVArmap
  else if name = [slash, slash] then .gnuLongNames
  else if name = sym64 then .unsupported64
  else if symdef.isPrefixOf name then
    if name = symdef ∨ name = symdef ++ sorted then .bsdArmap
    else if name = symdef ++ suffix64 ∨ name = symdef ++ sorted ++ suffix64 then .unsupported64
    else .unknownSymdef
  else .object

def parseLongNameTable (tbl : List UInt8) :
    ℕ → ℕ → Except ReadRefusal (List (ℕ × List UInt8))
  | 0, _ => .ok []
  | fuel + 1, start =>
    if start < tbl.length then
      let entry := (tbl.drop start).takeWhile (· != newline)
      if start + entry.length ≥ tbl.length then .error (.unterminatedLongName start)
      else do
        let rest ← parseLongNameTable tbl fuel (start + entry.length + 1)
        -- One slash at the end closes the entry; an empty entry is padding.
        let name := if entry.getLast? = some slash then entry.dropLast else entry
        .ok (if name.isEmpty then rest else (start, name) :: rest)
    else .ok []

def resolveMemberName (trimmed : List UInt8) (longNames : Option (List (ℕ × List UInt8))) :
    Except ReadRefusal (List UInt8) :=
  if trimmed.length ≥ 2 ∧ trimmed.head? = some slash ∧ allDigits trimmed.tail then
    match decimalValue trimmed.tail with
    | none => .error (.longNameOverflow trimmed)
    | some n =>
      match longNames with
      | none => .error (.noLongNames trimmed)
      | some names =>
        match names.lookup n with
        | none => .error (.badLongName n)
        | some name => .ok name
  else .ok (if trimmed.getLast? = some slash then trimmed.dropLast else trimmed)

structure RawMember where
  name : List UInt8
  nameIsFinal : Bool
  headerOffset : ℕ
  dataOffset : ℕ
  size : ℕ

structure Scan where
  raw : List RawMember := []
  longnames : Option (List UInt8) := none
  armap : Option (List UInt8) := none
  bsdArmap : Option (List UInt8) := none

/-- A member's name and where its contents begin: of an inline name the first bytes of the payload
are the name. -/
def inlineName (bytes trimmed : List UInt8) (off size : ℕ) : Except ReadRefusal RawMember :=
  if trimmed.length > 3 ∧ bsdInline.isPrefixOf trimmed ∧ allDigits (trimmed.drop 3) then
    match decimalValue (trimmed.drop 3) with
    | none => .error (.inlineLengthOverflow trimmed)
    | some n =>
      if n > size then .error (.inlineTooLong off n size)
      else
        .ok { name := ((bytes.drop (off + headerSize)).take n).rdropWhile (· == 0),
              nameIsFinal := true, headerOffset := off, dataOffset := off + headerSize + n,
              size := size - n }
  else
    .ok { name := trimmed, nameIsFinal := false, headerOffset := off,
          dataOffset := off + headerSize, size := size }

def Scan.record (st : Scan) (bytes : List UInt8) (m : RawMember) : Except ReadRefusal Scan :=
  let payload := (bytes.drop m.dataOffset).take m.size
  match classifyMemberName m.name with
  | .unsupported64 => .error (.unsupported64 m.name)
  | .unknownSymdef => .error (.unknownSymdef m.name)
  -- Of several indices of one kind the first counts.
  | .bsdArmap => .ok { st with bsdArmap := some (st.bsdArmap.getD payload) }
  | .sysVArmap => .ok { st with armap := some (st.armap.getD payload) }
  | .gnuLongNames => .ok { st with longnames := some payload }
  | .object => .ok { st with raw := st.raw ++ [m] }

/-- One turn of the walk: the header at an offset, and where the next one lies. -/
def scanStep (bytes : List UInt8) (off : ℕ) (st : Scan) : Except ReadRefusal (Scan × ℕ) :=
  if off + headerSize > bytes.length then .error (.headerPastEnd off)
  else if bytes.getD (off + 58) 0 ≠ 0x60 ∨ bytes.getD (off + 59) 0 ≠ newline then
    .error (.noTrailer off)
  else
    match parseAsciiDecimalField ((bytes.drop (off + 48)).take 10) with
    | none => .error (.badSize off)
    | some size =>
      if off + headerSize + size > bytes.length then .error (.dataPastEnd (off + headerSize) size)
      else do
        let m ← inlineName bytes (rstripNameField ((bytes.drop off).take 16)) off size
        let st ← st.record bytes m
        .ok (st, nextHeaderOffset off size)

def scan (bytes : List UInt8) : ℕ → ℕ → Scan → Except ReadRefusal Scan
  | 0, _, st => .ok st
  | fuel + 1, off, st =>
    if off < bytes.length then do
      let next ← scanStep bytes off st
      scan bytes fuel next.2 next.1
    else .ok st

structure Member where
  name : List UInt8
  headerOffset : ℕ
  dataOffset : ℕ
  size : ℕ

structure Symbol where
  name : List UInt8
  memberOffset : ℕ
  memberIndex : ℕ

/-- What a reader gets of an archive. -/
structure Archive where
  members : List Member
  symbols : List Symbol := []
  /-- The entries of the index that were dropped for want of a name; a warning counts them. -/
  emptyNameSkips : ℕ := 0

def Member.payload (m : Member) (bytes : List UInt8) : List UInt8 :=
  (bytes.drop m.dataOffset).take m.size

def resolveMembers (longNames : Option (List (ℕ × List UInt8))) (raw : List RawMember) :
    Except ReadRefusal (List Member) :=
  raw.mapM fun r => do
    let name ← if r.nameIsFinal then .ok r.name else resolveMemberName r.name longNames
    .ok { name, headerOffset := r.headerOffset, dataOffset := r.dataOffset, size := r.size }

def bindSymbol (a : Archive) (name : List UInt8) (memberOff : ℕ) : Except ReadRefusal Archive :=
  match a.members.findIdx? (·.headerOffset == memberOff) with
  | none => .error (.noSuchMember name memberOff)
  | some index =>
    if name.isEmpty then .ok { a with emptyNameSkips := a.emptyNameSkips + 1 }
    else .ok { a with symbols := a.symbols ++ [⟨name, memberOff, index⟩] }

def ranlibSymbols (d : List UInt8) (strStart strBytes : ℕ) :
    ℕ → ℕ → Archive → Except ReadRefusal Archive
  | 0, _, a => .ok a
  | rest + 1, i, a =>
    let strx := readU32LE d (4 + i * 8)
    if strx ≥ strBytes then .error (.strxPastEnd i strx)
    else
      let name := ((d.drop (strStart + strx)).take (strBytes - strx)).takeWhile (· != 0)
      if strx + name.length ≥ strBytes then .error (.nameUnterminated strx)
      else do
        let a ← bindSymbol a name (readU32LE d (4 + i * 8 + 4))
        ranlibSymbols d strStart strBytes rest (i + 1) a

def readRanlib (d : List UInt8) (a : Archive) : Except ReadRefusal Archive :=
  if d.length < 4 then .error .armapTruncated
  else
    let ranlibBytes := readU32LE d 0
    if ranlibBytes % 8 ≠ 0 then .error (.ranlibMisaligned ranlibBytes)
    else if 4 + ranlibBytes > d.length then .error .armapTruncated
    else if 4 + ranlibBytes + 4 > d.length then .error .armapTruncated
    else
      let strBytes := readU32LE d (4 + ranlibBytes)
      let strStart := 4 + ranlibBytes + 4
      if strStart + strBytes > d.length then .error .armapTruncated
      else ranlibSymbols d strStart strBytes (ranlibBytes / 8) 0 a

/-- The entries of the System V index, from entry `i` on, whose name begins at `pos`. -/
def armapSymbols (d : List UInt8) : ℕ → ℕ → ℕ → Archive → Except ReadRefusal Archive
  | 0, _, _, a => .ok a
  | rest + 1, i, pos, a =>
    if pos ≥ d.length then .error .armapTruncated
    else
      let name := (d.drop pos).takeWhile (· != 0)
      if pos + name.length ≥ d.length then .error (.nameUnterminated pos)
      else do
        let a ← bindSymbol a name (readU32BE d (4 + i * 4))
        armapSymbols d rest (i + 1) (pos + name.length + 1) a

def readArmap (d : List UInt8) (a : Archive) : Except ReadRefusal Archive :=
  if d.length < 4 then .error .armapTruncated
  else
    let count := readU32BE d 0
    if 4 + count * 4 > d.length then .error .armapTruncated
    else armapSymbols d count 0 (4 + count * 4) a

def readLongNames : Option (List UInt8) → Except ReadRefusal (Option (List (ℕ × List UInt8)))
  | none => .ok none
  | some tbl => do
    let names ← parseLongNameTable tbl tbl.length 0
    .ok (some names)

def readIndex (bsdArmap armap : Option (List UInt8)) (a : Archive) : Except ReadRefusal Archive :=
  match bsdArmap, armap with
  | some _, some _ => .error .bothArmaps
  | some d, none => readRanlib d a
  | none, some d => readArmap d a
  | none, none => .ok a

def readArArchive (bytes : List UInt8) : Except ReadRefusal Archive :=
  if bytes.take 8 ≠ magic then .error .badMagic
  else do
    let st ← scan bytes bytes.length 8 {}
    let longNames ← readLongNames st.longnames
    let members ← resolveMembers longNames st.raw
    readIndex st.bsdArmap st.armap { members }

end DssPrime.Ar
