import Mathlib

/-!
# Writing a static archive

The model of `writeArArchive` (`link/format/ar.cpp`): a list of object members with the symbols each
exports becomes a GNU / System V `ar` archive, or a COFF library with its second linker member.  A
refusal keeps the reason and what its diagnostic names; the source then returns no bytes.

A string of the source is a list of bytes.  Offsets are the source's 64-bit ones; a sum of sizes
that are held in memory does not wrap.
-/

namespace DssPrime.Ar

def magic : List UInt8 := [0x21, 0x3C, 0x61, 0x72, 0x63, 0x68, 0x3E, 0x0A]

def slash : UInt8 := 0x2F

def newline : UInt8 := 0x0A

def space : UInt8 := 0x20

def headerSize : ℕ := 60

def maxFieldSize : ℕ := 9999999999

def maxArmapOffset : ℕ := 0xFFFFFFFF

def maxCoffMembers : ℕ := 0xFFFF

def maxInlineNameLen : ℕ := 15

def decimal (n : ℕ) : List UInt8 := (Nat.toDigits 10 n).map fun c => UInt8.ofNat c.toNat

/-- A 32-bit word, most significant byte first. -/
def u32BE (n : ℕ) : List UInt8 :=
  [UInt8.ofNat (n / 2 ^ 24), UInt8.ofNat (n / 2 ^ 16), UInt8.ofNat (n / 2 ^ 8), UInt8.ofNat n]

/-- A 32-bit word, least significant byte first. -/
def u32LE (n : ℕ) : List UInt8 :=
  [UInt8.ofNat n, UInt8.ofNat (n / 2 ^ 8), UInt8.ofNat (n / 2 ^ 16), UInt8.ofNat (n / 2 ^ 24)]

/-- A 16-bit word, least significant byte first. -/
def u16LE (n : ℕ) : List UInt8 := [UInt8.ofNat n, UInt8.ofNat (n / 2 ^ 8)]

def field (s : List UInt8) (width : ℕ) : List UInt8 :=
  s ++ List.replicate (width - s.length) space

/-- A member's header: name, time, user, group, mode, size and the closing two bytes. -/
def header (nameField mode : List UInt8) (payloadSize : ℕ) : List UInt8 :=
  field nameField 16 ++ field (decimal 0) 12 ++ field (decimal 0) 6 ++ field (decimal 0) 6 ++
    field mode 8 ++ field (decimal payloadSize) 10 ++ [0x60, newline]

def emitMember (nameField mode payload : List UInt8) : List UInt8 :=
  header nameField mode payload.length ++ payload ++
    if payload.length % 2 = 1 then [newline] else []

def nextHeaderOffset (off payloadLen : ℕ) : ℕ := off + headerSize + payloadLen + payloadLen % 2

def isFramingReservedByte (c : UInt8) : Bool := c == slash || c == newline || c == 0

/-- An object to be archived. -/
structure MemberInput where
  name : List UInt8
  objectBytes : List UInt8
  exportedSymbols : List (List UInt8)

/-- The two forms of the index. -/
inductive Flavor where
  | sysV
  | coff
  deriving DecidableEq

inductive WriteRefusal where
  | tooManyMembers (count : ℕ)
  | emptyName
  | reservedByte (name : List UInt8)
  | payloadTooLarge (name : List UInt8) (size : ℕ)
  | longNameOffset (name : List UInt8)
  /-- A long-name table whose size the header cannot state. -/
  | longTableTooLarge
  | emptySymbol (member : List UInt8)
  | symbolHasNul (member : List UInt8)
  | tooManySymbols
  | armapTooLarge
  /-- A COFF index whose size the header cannot state. -/
  | secondTooLarge
  | offsetTooLarge (name : List UInt8) (offset : ℕ)

def WriteRefusal.code : WriteRefusal → String
  | .emptyName | .reservedByte _ | .emptySymbol _ | .symbolHasNul _ => "K_ArchiveMemberNameInvalid"
  | _ => "K_ArchiveFieldOverflow"

def refuseIf (c : Prop) [Decidable c] (e : WriteRefusal) : Except WriteRefusal Unit :=
  if c then .error e else .ok ()

/-- The name field of each member, and the table of the long names after them.  A name of at most
15 bytes stands in its header with a slash after it; a longer one goes to the table and the header
says where. -/
def nameFields (table : List UInt8) :
    List MemberInput → Except WriteRefusal (List (List UInt8) × List UInt8)
  | [] => .ok ([], table)
  | m :: ms =>
    if m.name.isEmpty then .error .emptyName
    else if m.name.any isFramingReservedByte then .error (.reservedByte m.name)
    else if m.objectBytes.length > maxFieldSize then
      .error (.payloadTooLarge m.name m.objectBytes.length)
    else if m.name.length ≤ maxInlineNameLen then do
      let rest ← nameFields table ms
      .ok ((m.name ++ [slash]) :: rest.1, rest.2)
    else if table.length > maxArmapOffset then .error (.longNameOffset m.name)
    else do
      let rest ← nameFields (table ++ m.name ++ [slash, newline]) ms
      .ok ((slash :: decimal table.length) :: rest.1, rest.2)

def checkSymbol (member : List UInt8) (sym : List UInt8) : Except WriteRefusal Unit := do
  refuseIf sym.isEmpty (.emptySymbol member)
  refuseIf (sym.any (· == 0)) (.symbolHasNul member)

def exported (members : List MemberInput) : List (ℕ × List UInt8) :=
  members.zipIdx.flatMap fun m => m.1.exportedSymbols.map fun sym => (m.2, sym)

def nameBlob (names : List (List UInt8)) : List UInt8 := names.flatMap fun name => name ++ [0]

def memberHeaderOffsets (off : ℕ) : List MemberInput → Except WriteRefusal (List ℕ)
  | [] => .ok []
  | m :: ms =>
    if off > maxArmapOffset then .error (.offsetTooLarge m.name off)
    else do
      let rest ← memberHeaderOffsets (nextHeaderOffset off m.objectBytes.length) ms
      .ok (off :: rest)

/-- The System V index: how many symbols, where each one's member lies, and their names. -/
def armapPayload (symbols : List (ℕ × List UInt8)) (offsets : List ℕ) : List UInt8 :=
  u32BE symbols.length ++ symbols.flatMap (fun s => u32BE (offsets.getD s.1 0)) ++
    nameBlob (symbols.map (·.2))

/-- The symbols in the order of their names.  The source's sort leaves open in which order equal
names come. -/
def sortedSymbols (symbols : List (ℕ × List UInt8)) : List (ℕ × List UInt8) :=
  symbols.mergeSort fun a b => decide (a.2.map UInt8.toNat ≤ b.2.map UInt8.toNat)

/-- The COFF index: the members' offsets, then the symbols by name with their members' numbers. -/
def secondPayload (symbols : List (ℕ × List UInt8)) (offsets : List ℕ) : List UInt8 :=
  u32LE offsets.length ++ offsets.flatMap u32LE ++ u32LE symbols.length ++
    (sortedSymbols symbols).flatMap (fun s => u16LE (s.1 + 1)) ++
    nameBlob ((sortedSymbols symbols).map (·.2))

def armapSize (symbols : List (ℕ × List UInt8)) : ℕ :=
  4 + 4 * symbols.length + (nameBlob (symbols.map (·.2))).length

def secondSize (members : List MemberInput) (symbols : List (ℕ × List UInt8)) : ℕ :=
  4 + 4 * members.length + 4 + 2 * symbols.length + (nameBlob (symbols.map (·.2))).length

def firstMemberOffset (flavor : Flavor) (members : List MemberInput)
    (symbols : List (ℕ × List UInt8)) (table : List UInt8) : ℕ :=
  let off := nextHeaderOffset magic.length (armapSize symbols)
  let off := if flavor = .coff then nextHeaderOffset off (secondSize members symbols) else off
  if table.isEmpty then off else nextHeaderOffset off table.length

def archiveBytes (flavor : Flavor) (members : List MemberInput) (fields : List (List UInt8))
    (table : List UInt8) (offsets : List ℕ) : List UInt8 :=
  let symbols := exported members
  magic ++ emitMember [slash] (decimal 0) (armapPayload symbols offsets) ++
    (if flavor = .coff then emitMember [slash] (decimal 0) (secondPayload symbols offsets)
      else []) ++
    (if table.isEmpty then [] else emitMember [slash, slash] (decimal 0) table) ++
    (fields.zip members).flatMap fun m => emitMember m.1 (decimal 644) m.2.objectBytes

def writeArArchive (members : List MemberInput) (flavor : Flavor) :
    Except WriteRefusal (List UInt8) := do
  refuseIf (flavor = .coff ∧ members.length > maxCoffMembers) (.tooManyMembers members.length)
  let names ← nameFields [] members
  refuseIf (names.2.length > maxFieldSize) .longTableTooLarge
  members.forM fun m => m.exportedSymbols.forM (checkSymbol m.name)
  let symbols := exported members
  refuseIf (symbols.length > maxArmapOffset) .tooManySymbols
  refuseIf (armapSize symbols > maxFieldSize) .armapTooLarge
  refuseIf (flavor = .coff ∧ secondSize members symbols > maxFieldSize) .secondTooLarge
  let offsets ← memberHeaderOffsets (firstMemberOffset flavor members symbols names.2) members
  .ok (archiveBytes flavor members names.1 names.2 offsets)

end DssPrime.Ar
