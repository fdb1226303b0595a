import FirebirdCore.Clumplet.Iterate

/-!
# Writing parameter blocks

A writer inserts clumplets where it is. If one is too long for the version of the block, and the writer
knows a newer version, the block is copied to it first.
-/
namespace FirebirdCore.Clumplet
open FirebirdCore.LittleEndian

/-- The lists of the kinds that a block may have, with their tags. -/
inductive KindList where
  | dpbList
  | spbList
  deriving DecidableEq, Repr

def KindList.entries : KindList → List (Kind × UInt8)
  | dpbList => [(.tagged, iscDpbVersion1), (.wideTagged, iscDpbVersion2)]
  | spbList => [(.spbAttach, iscSpbVersion), (.spbAttach, iscSpbVersion1), (.wideTagged, iscSpbVersion3)]

structure ClumpletWriter extends ClumpletReader where
  sizeLimit : ℕ
  kindList : Option KindList
  deriving DecidableEq, Repr

/-- What comes of an insertion. It is undefined if it writes behind the memory that it has. -/
inductive InsertResult where
  | inserted
  | raised (e : ClumpletError)
  | undefined
  deriving DecidableEq, Repr

namespace ClumpletType

/-- Whether a clumplet of the type has room for so many bytes. -/
def accepts (type : ClumpletType) (length : ℕ) : Bool :=
  match type with
  | wide => length ≤ 2 ^ 32 - 1
  | traditionalDpb => length ≤ 255
  | singleTpb => length = 0
  | stringSpb => length ≤ 65535
  | intSpb => length = 4
  | bigIntSpb => length = 8
  | byteSpb => length = 1

/-- What is said of a length that is not accepted. It is printed as a signed number. -/
def complaint (type : ClumpletType) (length : ℕ) : String :=
  let printed := toString (BitVec.ofNat 32 length).toInt
  match type with
  | wide => "attempt to store " ++ printed ++ " bytes in a clumplet"
  | traditionalDpb => "attempt to store " ++ printed ++ " bytes in a clumplet with maximum size 255 bytes"
  | singleTpb => "attempt to store data in dataless clumplet"
  | stringSpb => "attempt to store " ++ printed ++ " bytes in a clumplet"
  | intSpb => "attempt to store " ++ printed ++ " bytes in a clumplet, need 4"
  | bigIntSpb => "attempt to store " ++ printed ++ " bytes in a clumplet, need 8"
  | byteSpb => "attempt to store " ++ printed ++ " bytes in a clumplet, need 1"

end ClumpletType

namespace ClumpletReader

def getBufferTag (r : ClumpletReader) : Except ClumpletError UInt8 :=
  match r.kind with
  | .tpb | .tagged | .wideTagged =>
      match r.buffer with
      | [] => .error (.invalidStructure "empty buffer")
      | tag :: _ => .ok tag
  | .spbAttach =>
      match r.buffer with
      | [] => .error (.invalidStructure "empty buffer")
      | version :: rest =>
          if version = iscSpbVersion1 then .ok version
          else if version = iscSpbVersion then
            match rest with
            | [] => .error (.invalidStructure "buffer too short (1 byte)")
            | tag :: _ => .ok tag
          else if version = iscSpbVersion3 then .ok version
          else
            .error (.invalidStructure
              "spb in service attach should begin with isc_spb_version1 or isc_spb_version")
  | _ => .error (.usageMistake "buffer is not tagged")

/-- The bytes of a clumplet that was reported. -/
def bytesOf (r : ClumpletReader) (clumplet : SingleClumplet) : List UInt8 :=
  (r.buffer.drop clumplet.data).take clumplet.size

/-- Whether there is a clumplet with the tag. The reader is then at the first one, and where it was
otherwise. -/
def findFrom (tag : UInt8) (curOffset : ℕ) :
    ℕ → ClumpletReader → Option (Except ClumpletError (Bool × ClumpletReader))
  | 0, _ => none
  | fuel + 1, r =>
      if r.isEof then some (.ok (false, { r with curOffset := curOffset }))
      else
        match r.getClumpTag with
        | .error e => some (.error e)
        | .ok clumpTag =>
            if tag = clumpTag then some (.ok (true, r))
            else
              match r.moveNext with
              | .error e => some (.error e)
              | .ok next => findFrom tag curOffset fuel next

def find (tag : UInt8) (r : ClumpletReader) : Option (Except ClumpletError (Bool × ClumpletReader)) :=
  findFrom tag r.curOffset (r.buffer.length + 1) r.rewind

end ClumpletReader

namespace ClumpletWriter
open ClumpletReader

def initNewBuffer (kind : Kind) (tag : UInt8) : List UInt8 :=
  match kind with
  | .spbAttach => if tag ≠ iscSpbVersion1 then [iscSpbVersion, tag] else [tag]
  | .tagged | .tpb | .wideTagged => [tag]
  | _ => []

/-- An empty writer of a kind. -/
def ofKind (kind : Kind) (limit : ℕ) (tag : UInt8) : ClumpletWriter :=
  ⟨ClumpletReader.create kind (initNewBuffer kind tag), limit, none⟩

/-- An empty writer of the first kind of a list. -/
def ofKindList (kindList : KindList) (limit : ℕ) : ClumpletWriter :=
  let entry := kindList.entries.headI
  ⟨ClumpletReader.create entry.1 (initNewBuffer entry.1 entry.2), limit, some kindList⟩

/-- The bytes of a clumplet. -/
def clumpletBytes (type : ClumpletType) (tag : UInt8) (bytes : List UInt8) : List UInt8 :=
  tag :: toBytes type.lengthSize bytes.length ++ bytes

/-- A clumplet of a type that accepts it is inserted. The size that is compared with the limit has 32
bits. -/
def store (w : ClumpletWriter) (type : ClumpletType) (tag : UInt8) (bytes : List UInt8) :
    ClumpletWriter × InsertResult :=
  let size := w.buffer.length + bytes.length + type.lengthSize + 1
  if size % 2 ^ 32 > w.sizeLimit then (w, .raised (.sizeOverflow "Clumplet buffer size limit reached"))
  else if 2 ^ 32 ≤ size then (w, .undefined)
  else
    let buffer := w.buffer.take w.curOffset ++ clumpletBytes type tag bytes ++ w.buffer.drop w.curOffset
    let r : ClumpletReader := { w.toClumpletReader with buffer := buffer }
    match r.adjustSpbState with
    | .error e => ({ w with buffer := buffer }, .raised e)
    | .ok r =>
        ({ w with
            buffer := buffer
            curOffset := w.curOffset + (1 + type.lengthSize + bytes.length)
            spbState := r.spbState }, .inserted)

/-- An insertion into the version that the block has. -/
def insertPlain (w : ClumpletWriter) (tag : UInt8) (bytes : List UInt8) :
    ClumpletWriter × InsertResult :=
  if w.curOffset > w.buffer.length then (w, .raised (.usageMistake "write past EOF"))
  else
    match getClumpletType w.kind w.spbState tag with
    | .error e => (w, .raised e)
    | .ok type =>
        if type.accepts bytes.length then w.store type tag bytes
        else (w, .raised (.usageMistake (type.complaint bytes.length)))

/-- The clumplets from where `w` is on go to `newPb`. What is given is `w` where it stops, the new block,
where it was when `w` came to `currentPosition`, and whether all went well. -/
def copyClumplets (currentPosition : ℕ) :
    ℕ → ClumpletWriter → ClumpletWriter → ℕ → ClumpletWriter × ClumpletWriter × ℕ × InsertResult
  | 0, w, newPb, newPos => (w, newPb, newPos, .undefined)
  | fuel + 1, w, newPb, newPos =>
      if w.isEof then (w, newPb, newPos, .inserted)
      else
        let newPos := if currentPosition = w.curOffset then newPb.curOffset else newPos
        match w.getClumplet with
        | .error e => (w, newPb, newPos, .raised e)
        | .ok clumplet =>
            match newPb.insertPlain clumplet.tag (w.bytesOf clumplet) with
            | (newPb, .inserted) =>
                match newPb.moveNext with
                | .error e => (w, newPb, newPos, .raised e)
                | .ok newReader =>
                    match w.moveNext with
                    | .error e => (w, newPb, newPos, .raised e)
                    | .ok r =>
                        copyClumplets currentPosition fuel { w with toClumpletReader := r }
                          { newPb with toClumpletReader := newReader } newPos
            | (newPb, result) => (w, newPb, newPos, result)

/-- The entry with the highest tag. -/
def newest (entries : List (Kind × UInt8)) : Kind × UInt8 :=
  entries.foldl (fun newest entry => if entry.2 > newest.2 then entry else newest) entries.headI

/-- The block is copied to a version. The writer is then where it was, if it was at a clumplet, and in
front of all otherwise. -/
def copyTo (w : ClumpletWriter) (newest : Kind × UInt8) : ClumpletWriter × InsertResult :=
  match copyClumplets w.curOffset (w.buffer.length + 1) { w with toClumpletReader := w.rewind }
      (ofKind newest.1 w.sizeLimit newest.2) 0 with
  | (w, newPb, newPos, .inserted) =>
      let w := { w with
        kind := newest.1
        buffer := newPb.buffer }
      (if newPos ≠ 0 then { w with curOffset := newPos } else { w with toClumpletReader := w.rewind },
        .inserted)
  | (w, _, _, result) => (w, result)

/-- The block is copied to the newest version, if there is a newer one. -/
def upgradeVersion (w : ClumpletWriter) : Option (ClumpletWriter × InsertResult) :=
  match w.kindList with
  | none => none
  | some kindList =>
      let newest := newest kindList.entries
      if w.getBufferLength ≠ 0 then
        match w.getBufferTag with
        | .error e => some (w, .raised e)
        | .ok tag => if newest.2 ≤ tag then none else some (w.copyTo newest)
      else some (w.copyTo newest)

/-- The type is asked for again after the block has been copied. -/
def insertLoop (tag : UInt8) (bytes : List UInt8) : ℕ → ClumpletWriter → ClumpletWriter × InsertResult
  | 0, w => (w, .undefined)
  | rounds + 1, w =>
      match getClumpletType w.kind w.spbState tag with
      | .error e => (w, .raised e)
      | .ok type =>
          if type.accepts bytes.length then w.store type tag bytes
          else
            match w.upgradeVersion with
            | none => (w, .raised (.usageMistake (type.complaint bytes.length)))
            | some (w, .inserted) => insertLoop tag bytes rounds w
            | some r => r

/-- Both lists end with a kind that has room for all, so that two rounds are enough. -/
def insertBytesLengthCheck (w : ClumpletWriter) (tag : UInt8) (bytes : List UInt8) :
    ClumpletWriter × InsertResult :=
  if w.curOffset > w.buffer.length then (w, .raised (.usageMistake "write past EOF"))
  else insertLoop tag bytes 2 w

def deleteClumplet (w : ClumpletWriter) : Except ClumpletError ClumpletWriter :=
  if w.curOffset ≥ w.buffer.length then .error (.usageMistake "write past EOF")
  else if w.buffer.length - w.curOffset < 2 then .ok { w with buffer := w.buffer.take w.curOffset }
  else
    (w.getClumpletSize true true true).map fun size =>
      { w with buffer := w.buffer.take w.curOffset ++ w.buffer.drop (w.curOffset + size) }

/-- All clumplets with the tag are deleted. The fuel bounds their number. -/
def deleteAll (tag : UInt8) : ℕ → ClumpletWriter → Option (Except ClumpletError ClumpletWriter)
  | 0, _ => none
  | fuel + 1, w =>
      match w.find tag with
      | none => none
      | some (.error e) => some (.error e)
      | some (.ok (false, r)) => some (.ok { w with toClumpletReader := r })
      | some (.ok (true, r)) =>
          match deleteClumplet { w with toClumpletReader := r } with
          | .error e => some (.error e)
          | .ok w => deleteAll tag fuel w

def deleteWithTag (w : ClumpletWriter) (tag : UInt8) : Option (Except ClumpletError ClumpletWriter) :=
  deleteAll tag (w.buffer.length + 1) w

end ClumpletWriter

end FirebirdCore.Clumplet
