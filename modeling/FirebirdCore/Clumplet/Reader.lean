import FirebirdCore.Lib.LittleEndian
import Mathlib.Data.List.Basic
import Mathlib.Tactic

/-!
# Reading parameter blocks

A parameter block is a buffer of clumplets, each with a tag, mostly with a length, and with data. The
kind of the buffer, the tag and, in the block that starts a service, the action decide how long the
length component is.
-/
namespace FirebirdCore.Clumplet
open FirebirdCore.LittleEndian

/-! ## Tags -/

def iscTpbLockRead : UInt8 := 10
def iscTpbLockWrite : UInt8 := 11
def iscTpbLockTimeout : UInt8 := 21

def iscSpbVersion1 : UInt8 := 1
def iscSpbVersion : UInt8 := 2
def iscSpbVersion3 : UInt8 := 3
def iscDpbVersion1 : UInt8 := 1
def iscDpbVersion2 : UInt8 := 2

def iscInfoEnd : UInt8 := 1
def iscInfoTruncated : UInt8 := 2
def iscInfoError : UInt8 := 3
def iscInfoDataNotReady : UInt8 := 4
def iscInfoSvcAuthBlock : UInt8 := 69
def iscInfoLength : UInt8 := 126
def iscInfoFlagEnd : UInt8 := 127

def iscSpbAuthBlock : UInt8 := 115
def iscSpbTrustedAuth : UInt8 := 111
def iscSpbAuthPluginName : UInt8 := 116
def iscSpbAuthPluginList : UInt8 := 117

def iscSpbDbname : UInt8 := 106
def iscSpbOptions : UInt8 := 108
def iscSpbVerbose : UInt8 := 107
def iscSpbVerbint : UInt8 := 114
def iscSpbCommandLine : UInt8 := 105
def iscSpbSqlRoleName : UInt8 := 60

def iscSpbBkpFile : UInt8 := 5
def iscSpbResFixFssData : UInt8 := 13
def iscSpbResFixFssMetadata : UInt8 := 14
def iscSpbBkpStat : UInt8 := 15
def iscSpbBkpSkipData : UInt8 := 8
def iscSpbBkpFactor : UInt8 := 6
def iscSpbBkpLength : UInt8 := 7
def iscSpbResLength : UInt8 := 11
def iscSpbResBuffers : UInt8 := 9
def iscSpbResPageSize : UInt8 := 10
def iscSpbResAccessMode : UInt8 := 12

def iscSpbRprCommitTrans : UInt8 := 15
def iscSpbRprRollbackTrans : UInt8 := 34
def iscSpbRprRecoverTwoPhase : UInt8 := 17
def iscSpbRprCommitTrans64 : UInt8 := 49
def iscSpbRprRollbackTrans64 : UInt8 := 50
def iscSpbRprRecoverTwoPhase64 : UInt8 := 51

def iscSpbSecUserid : UInt8 := 5
def iscSpbSecGroupid : UInt8 := 6
def iscSpbSecUsername : UInt8 := 7
def iscSpbSecPassword : UInt8 := 8
def iscSpbSecGroupname : UInt8 := 9
def iscSpbSecFirstname : UInt8 := 10
def iscSpbSecMiddlename : UInt8 := 11
def iscSpbSecLastname : UInt8 := 12
def iscSpbSecAdmin : UInt8 := 13

def iscSpbPrpPageBuffers : UInt8 := 5
def iscSpbPrpSweepInterval : UInt8 := 6
def iscSpbPrpShutdownDb : UInt8 := 7
def iscSpbPrpDenyNewAttachments : UInt8 := 9
def iscSpbPrpDenyNewTransactions : UInt8 := 10
def iscSpbPrpReserveSpace : UInt8 := 11
def iscSpbPrpWriteMode : UInt8 := 12
def iscSpbPrpAccessMode : UInt8 := 13
def iscSpbPrpSetSqlDialect : UInt8 := 14
def iscSpbPrpForceShutdown : UInt8 := 41
def iscSpbPrpAttachmentsShutdown : UInt8 := 42
def iscSpbPrpTransactionsShutdown : UInt8 := 43
def iscSpbPrpShutdownMode : UInt8 := 44
def iscSpbPrpOnlineMode : UInt8 := 45

def iscSpbStsTable : UInt8 := 64
def iscSpbNbkLevel : UInt8 := 5
def iscSpbNbkFile : UInt8 := 6
def iscSpbNbkDirect : UInt8 := 7

def iscSpbTrcId : UInt8 := 1
def iscSpbTrcName : UInt8 := 2
def iscSpbTrcCfg : UInt8 := 3
def iscSpbValTabIncl : UInt8 := 1
def iscSpbValTabExcl : UInt8 := 2
def iscSpbValIdxIncl : UInt8 := 3
def iscSpbValIdxExcl : UInt8 := 4
def iscSpbValLockTimeout : UInt8 := 5

def iscActionSvcBackup : UInt8 := 1
def iscActionSvcRestore : UInt8 := 2
def iscActionSvcRepair : UInt8 := 3
def iscActionSvcAddUser : UInt8 := 4
def iscActionSvcDeleteUser : UInt8 := 5
def iscActionSvcModifyUser : UInt8 := 6
def iscActionSvcDisplayUser : UInt8 := 7
def iscActionSvcProperties : UInt8 := 8
def iscActionSvcDbStats : UInt8 := 11
def iscActionSvcGetIbLog : UInt8 := 12
def iscActionSvcNbak : UInt8 := 20
def iscActionSvcNrest : UInt8 := 21
def iscActionSvcTraceStart : UInt8 := 22
def iscActionSvcTraceStop : UInt8 := 23
def iscActionSvcTraceSuspend : UInt8 := 24
def iscActionSvcTraceResume : UInt8 := 25
def iscActionSvcSetMapping : UInt8 := 27
def iscActionSvcDropMapping : UInt8 := 28
def iscActionSvcDisplayUserAdm : UInt8 := 29
def iscActionSvcValidate : UInt8 := 30

/-! ## Types of clumplets -/

inductive Kind where
  | endOfList
  | tagged
  | unTagged
  | spbAttach
  | spbStart
  | tpb
  | wideTagged
  | wideUnTagged
  | spbSendItems
  | spbReceiveItems
  deriving DecidableEq, Repr, Inhabited

inductive ClumpletType where
  | traditionalDpb
  | singleTpb
  | stringSpb
  | intSpb
  | bigIntSpb
  | byteSpb
  | wide
  deriving DecidableEq, Repr

/-- What is raised. -/
inductive ClumpletError where
  | usageMistake (what : String)
  | invalidStructure (what : String)
  | sizeOverflow (what : String)
  deriving DecidableEq, Repr

namespace ClumpletType

/-- The size of the length component. -/
def lengthSize : ClumpletType → ℕ
  | wide => 4
  | traditionalDpb => 1
  | stringSpb => 2
  | _ => 0

/-- The size of the data, where it is not read from a length component. -/
def fixedSize : ClumpletType → Option ℕ
  | singleTpb => some 0
  | intSpb => some 4
  | bigIntSpb => some 8
  | byteSpb => some 1
  | _ => none

end ClumpletType

/-- The parameters of some services, by the type of their clumplets, and what is raised for others. -/
structure Service where
  actions : List UInt8
  strings : List UInt8 := []
  ints : List UInt8 := []
  bigInts : List UInt8 := []
  singles : List UInt8 := []
  bytes : List UInt8 := []
  unknown : String

def services : List Service :=
  [ { actions := [iscActionSvcBackup, iscActionSvcRestore]
      strings := [iscSpbBkpFile, iscSpbDbname, iscSpbResFixFssData, iscSpbResFixFssMetadata,
        iscSpbBkpStat, iscSpbBkpSkipData]
      ints := [iscSpbBkpFactor, iscSpbBkpLength, iscSpbResLength, iscSpbResBuffers, iscSpbResPageSize,
        iscSpbOptions, iscSpbVerbint]
      singles := [iscSpbVerbose]
      bytes := [iscSpbResAccessMode]
      unknown := "unknown parameter for backup/restore" },
    { actions := [iscActionSvcRepair]
      strings := [iscSpbDbname]
      ints := [iscSpbOptions, iscSpbRprCommitTrans, iscSpbRprRollbackTrans, iscSpbRprRecoverTwoPhase]
      bigInts := [iscSpbRprCommitTrans64, iscSpbRprRollbackTrans64, iscSpbRprRecoverTwoPhase64]
      unknown := "unknown parameter for repair" },
    { actions := [iscActionSvcAddUser, iscActionSvcDeleteUser, iscActionSvcModifyUser,
        iscActionSvcDisplayUser, iscActionSvcDisplayUserAdm, iscActionSvcSetMapping,
        iscActionSvcDropMapping]
      strings := [iscSpbDbname, iscSpbSqlRoleName, iscSpbSecUsername, iscSpbSecPassword,
        iscSpbSecGroupname, iscSpbSecFirstname, iscSpbSecMiddlename, iscSpbSecLastname]
      ints := [iscSpbSecUserid, iscSpbSecGroupid, iscSpbSecAdmin]
      unknown := "unknown parameter for security database operation" },
    { actions := [iscActionSvcProperties]
      strings := [iscSpbDbname]
      ints := [iscSpbPrpPageBuffers, iscSpbPrpSweepInterval, iscSpbPrpShutdownDb,
        iscSpbPrpDenyNewAttachments, iscSpbPrpDenyNewTransactions, iscSpbPrpSetSqlDialect,
        iscSpbOptions, iscSpbPrpForceShutdown, iscSpbPrpAttachmentsShutdown,
        iscSpbPrpTransactionsShutdown]
      bytes := [iscSpbPrpReserveSpace, iscSpbPrpWriteMode, iscSpbPrpAccessMode,
        iscSpbPrpShutdownMode, iscSpbPrpOnlineMode]
      unknown := "unknown parameter for setting database properties" },
    { actions := [iscActionSvcDbStats]
      strings := [iscSpbDbname, iscSpbCommandLine, iscSpbStsTable]
      ints := [iscSpbOptions]
      unknown := "unknown parameter for getting statistics" },
    { actions := [iscActionSvcGetIbLog]
      unknown := "unknown parameter for getting log" },
    { actions := [iscActionSvcNbak, iscActionSvcNrest]
      strings := [iscSpbNbkFile, iscSpbNbkDirect, iscSpbDbname]
      ints := [iscSpbNbkLevel, iscSpbOptions]
      unknown := "unknown parameter for nbackup" },
    { actions := [iscActionSvcTraceStart, iscActionSvcTraceStop, iscActionSvcTraceSuspend,
        iscActionSvcTraceResume]
      strings := [iscSpbTrcCfg, iscSpbTrcName]
      ints := [iscSpbTrcId]
      unknown := "wrong spb state" },
    { actions := [iscActionSvcValidate]
      strings := [iscSpbValTabIncl, iscSpbValTabExcl, iscSpbValIdxIncl, iscSpbValIdxExcl, iscSpbDbname]
      ints := [iscSpbValLockTimeout]
      unknown := "wrong spb state" } ]

def Service.getType (service : Service) (tag : UInt8) : Except ClumpletError ClumpletType :=
  if tag ∈ service.strings then .ok .stringSpb
  else if tag ∈ service.ints then .ok .intSpb
  else if tag ∈ service.bigInts then .ok .bigIntSpb
  else if tag ∈ service.singles then .ok .singleTpb
  else if tag ∈ service.bytes then .ok .byteSpb
  else .error (.invalidStructure service.unknown)

/-- The tags that are wide in every state of the block that starts a service. -/
def spbWideTags : List UInt8 :=
  [iscSpbAuthBlock, iscSpbTrustedAuth, iscSpbAuthPluginName, iscSpbAuthPluginList]

def getClumpletType (kind : Kind) (spbState tag : UInt8) : Except ClumpletError ClumpletType :=
  match kind with
  | .tagged | .unTagged | .spbAttach => .ok .traditionalDpb
  | .wideTagged | .wideUnTagged => .ok .wide
  | .tpb =>
      if tag ∈ [iscTpbLockWrite, iscTpbLockRead, iscTpbLockTimeout] then .ok .traditionalDpb
      else .ok .singleTpb
  | .spbSendItems =>
      if tag = iscInfoSvcAuthBlock then .ok .wide
      else if tag ∈ [iscInfoEnd, iscInfoTruncated, iscInfoError, iscInfoDataNotReady, iscInfoLength,
          iscInfoFlagEnd] then .ok .singleTpb
      else .ok .stringSpb
  | .spbReceiveItems => .ok .singleTpb
  | .spbStart =>
      if tag ∈ spbWideTags then .ok .wide
      else if spbState = 0 then .ok .singleTpb
      else
        match services.find? fun service => spbState ∈ service.actions with
        | some service => service.getType tag
        | none => .error (.invalidStructure "wrong spb state")
  | .endOfList => .error (.invalidStructure "unknown reason")

/-! ## The reader -/

/-- A reader over the bytes of a buffer. -/
structure ClumpletReader where
  kind : Kind
  buffer : List UInt8
  curOffset : ℕ
  spbState : UInt8
  deriving DecidableEq, Repr

/-- What is reported of a clumplet: the tag, the size of the data and where they begin. -/
structure SingleClumplet where
  tag : UInt8
  size : ℕ
  data : ℕ
  deriving DecidableEq, Repr

namespace ClumpletReader

/-- A buffer that holds its own tag only counts as empty. -/
def getBufferLength (r : ClumpletReader) : ℕ :=
  if r.buffer.length = 1 ∧ r.kind ∉ [.unTagged, .spbStart, .wideUnTagged, .spbSendItems, .spbReceiveItems]
  then 0
  else r.buffer.length

def isEof (r : ClumpletReader) : Bool := r.curOffset ≥ r.getBufferLength

/-- The sizes of the length component and of the data. The sum of the sizes has 32 bits. -/
def measure (r : ClumpletReader) : Except ClumpletError (ℕ × ℕ) :=
  match r.buffer.drop r.curOffset with
  | [] => .error (.usageMistake "read past EOF")
  | tag :: rest =>
      match getClumpletType r.kind r.spbState tag with
      | .error e => .error e
      | .ok type =>
          if rest.length < type.lengthSize then
            .error (.invalidStructure "buffer end before end of clumplet - no length component")
          else
            let dataSize := type.fixedSize.getD (ofBytes (rest.take type.lengthSize))
            let total := (1 + type.lengthSize + dataSize) % 2 ^ 32
            if rest.length + 1 < total then
              .error (.invalidStructure "buffer end before end of clumplet - clumplet too long")
            else .ok (type.lengthSize, dataSize)

def getClumpletSize (wTag wLength wData : Bool) (r : ClumpletReader) : Except ClumpletError ℕ :=
  r.measure.map fun (lengthSize, dataSize) =>
    ((if wTag then 1 else 0) + (if wLength then lengthSize else 0) + if wData then dataSize else 0) % 2 ^ 32

def getClumpTag (r : ClumpletReader) : Except ClumpletError UInt8 :=
  match r.buffer.drop r.curOffset with
  | [] => .error (.usageMistake "read past EOF")
  | tag :: _ => .ok tag

def getClumpLength (r : ClumpletReader) : Except ClumpletError ℕ := r.getClumpletSize false false true

/-- Where the data begin. -/
def getBytes (r : ClumpletReader) : Except ClumpletError ℕ :=
  (r.getClumpletSize true true false).map (r.curOffset + ·)

def getClumplet (r : ClumpletReader) : Except ClumpletError SingleClumplet := do
  let tag ← r.getClumpTag
  let size ← r.getClumpLength
  let data ← r.getBytes
  return ⟨tag, size, data⟩

/-- The first clumplet that is a tag only names the action of the service. -/
def adjustSpbState (r : ClumpletReader) : Except ClumpletError ClumpletReader :=
  if r.kind = .spbStart ∧ r.spbState = 0 then do
    let size ← r.getClumpletSize true true true
    if size = 1 then
      let tag ← r.getClumpTag
      return { r with spbState := tag }
    else return r
  else return r

def moveNext (r : ClumpletReader) : Except ClumpletError ClumpletReader :=
  if r.isEof then return r
  else do
    let cs ← r.getClumpletSize true true true
    let r ← r.adjustSpbState
    return { r with curOffset := (r.curOffset + cs) % 2 ^ 32 }

def rewind (r : ClumpletReader) : ClumpletReader :=
  let curOffset :=
    match r.kind with
    | .unTagged | .wideUnTagged | .spbStart | .spbSendItems | .spbReceiveItems => 0
    | _ =>
        if r.kind = .spbAttach ∧ r.getBufferLength > 0 ∧ r.buffer.head? ≠ some iscSpbVersion1 then 2
        else 1
  { r with
    curOffset := curOffset
    spbState := 0 }

/-- A new reader. -/
def create (kind : Kind) (buffer : List UInt8) : ClumpletReader := rewind ⟨kind, buffer, 0, 0⟩

end ClumpletReader

end FirebirdCore.Clumplet
