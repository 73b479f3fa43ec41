import ResourceServer.Core.FileStream
import ResourceServer.Core.Memory
import ResourceServer.Native.Global
import ResourceServer.Native.Json
import ResourceServer.Native.Path

/-!
# The upload handler

`LogicSystem::do_upload_file_req` without `_DEBUG`, statement by statement, over
the disk and the session's file stream. `Assert` has no effect, so its arguments
are only recorded. JSON parsing, the configuration, `BIO_read` and the outcome of
the file system calls are parameters.
-/

namespace ResourceServer

open FileStream Memory

/-- The code outside the repository the handler calls. -/
structure UploadEnv (κ : Type) where
  /-- `nlohmann::json::parse`; none when it throws. -/
  parse : Bytes → Option Json
  /-- `cfg["Path"]["ResourceRoot"].value<std::string> ()`. -/
  resourceRoot : Option String
  /-- The format of the platform's path strings. -/
  paths : PathFormat
  /-- The file a path names. -/
  resolve : String → κ
  /-- `BIO_read` of a base64 filter over the given text: the returned number and
  the bytes it leaves in a buffer of the given size. -/
  bioRead : Bytes → Nat → Int × Bytes

/-- What the file system answers to the calls of one request. -/
structure FsOutcome where
  /-- `fs::exists` of the parent directory; none when it throws. -/
  dirExists : Option Bool
  /-- Whether `fs::create_directories` returns, not throws. -/
  createDirectories : Bool
  /-- Whether opening the file succeeds. -/
  opens : Bool
  deriving DecidableEq, Repr

/-- What one session's requests read and change. -/
structure UploadState (κ : Type) where
  /-- The disk and `m_file_out`. -/
  files : View κ Byte
  /-- The arguments of `session->send`, before `dump ()`. -/
  sent : List (ReqId × Json)
  /-- The first arguments of `Assert`. -/
  asserts : List Bool
  /-- The arguments of `fs::create_directories`. -/
  createdDirs : List String

/-- The handler's body: an exception keeps the effects made before it. -/
abbrev UploadM (κ : Type) := ExceptT Exn (StateM (UploadState κ))

/-- The request fields the handler converts, in its order. -/
structure UploadFields where
  md5 : String
  filename : String
  seq : BitVec 64
  transSize : BitVec 64
  totalSize : BitVec 64
  last : Bool
  base64Buffer : String
  deriving DecidableEq, Repr

/-- The conversions at the head of the handler. -/
def uploadFields (root : Json) : Except Exn UploadFields := do
  let md5 ← (← root.get "md5").getString
  let filename ← (← root.get "name").getString
  let seq ← (← root.get "seq").getSize
  let transSize ← (← root.get "trans_size").getSize
  let totalSize ← (← root.get "total_size").getSize
  let last ← (← root.get "last").getBool
  let base64Buffer ← (← root.get "data").getString
  return { md5, filename, seq, transSize, totalSize, last, base64Buffer }

/-- `base64_decode`: the text is read as a zero-terminated string, and a negative
result of `BIO_read` becomes a length no string has. -/
def base64Decode (bioRead : Bytes → Nat → Int × Bytes) (encoded : String) : Except Exn Bytes :=
  let bytes := encoded.toUTF8.toList
  let (decodedLength, decoded) := bioRead (cString 0 bytes) bytes.length
  if decodedLength = 0 then .ok []
  else if decodedLength < 0 then .error .lengthError
  else .ok (decoded.take decodedLength.toNat)

/-- `out.open`, when the stream is closed: the first packet empties the file. -/
def openFile {κ : Type} [DecidableEq κ] (opens : Bool) (seq : BitVec 64) (path : κ)
    (v : View κ Byte) : View κ Byte :=
  if v.out.isNone && opens then
    if seq = 1 then v.openOn .trunc path else v.openOn .app path
  else v

section Handler

variable {κ : Type} [DecidableEq κ]

/-- `Assert`. -/
def assert (e : Bool) : UploadM κ Unit := modify fun s => { s with asserts := s.asserts ++ [e] }

/-- A call on the file stream. -/
def onFiles (f : View κ Byte → View κ Byte) : UploadM κ Unit :=
  modify fun s => { s with files := f s.files }

/-- The response to a request whose root is a null. -/
def invalidJsonRespond : Json :=
  (Json.null.set "sucess" (.ofUint16 ResStaus.invalidJson.enumToInt)).set "message"
    (.string "json is invalid!!!")

/-- The response to a request handled to its end. -/
def successRespond (req : UploadFields) : Json :=
  ((((Json.null.set "sucess" (.ofUint16 ResStaus.sucess.enumToInt)).set "name"
    (.string req.filename)).set "total_size" (.numberUnsigned req.totalSize)).set "trans_size"
    (.numberUnsigned req.transSize)).set "message" (.string "success")

/-- The handler between the construction of `Defer` and its destruction; the
result is the response. -/
def uploadBody (env : UploadEnv κ) (os : FsOutcome) (root : Json) : UploadM κ Json := do
  if root.isNull && !root.isObject then return invalidJsonRespond
  let req ← uploadFields root
  assert env.resourceRoot.isSome
  let pathPre ← env.resourceRoot.elim (throw .badOptionalAccess) pure
  let path := resourcePath env.paths pathPre req.filename
  let found ← os.dirExists.elim (throw .filesystemError) pure
  if !found then
    modify fun s => { s with createdDirs := s.createdDirs ++ [parentPath env.paths path] }
    if !os.createDirectories then throw .filesystemError
  onFiles (openFile os.opens req.seq (env.resolve path))
  assert (← get).files.out.isSome
  let buffer ← base64Decode env.bioRead req.base64Buffer
  onFiles (View.write buffer)
  if req.last then onFiles (View.close 0)
  return successRespond req

/-- `session->send` of the response. -/
def UploadState.send (respond : Json) (s : UploadState κ) : UploadState κ :=
  { s with sent := s.sent ++ [(.idUploadFileRsp, respond)] }

/-- `LogicSystem::do_upload_file_req`. The response of a body left by an
exception is the null it was constructed as; every catch clause is an `Assert (false)`. -/
def doUploadFileReq (env : UploadEnv κ) (os : FsOutcome) (data : Bytes) (s : UploadState κ) :
    UploadState κ :=
  match env.parse data with
  | none => { s with asserts := s.asserts ++ [false] }
  | some root =>
    match (uploadBody env os root).run s with
    | (.ok respond, t) => t.send respond
    | (.error _, t) => { t.send .null with asserts := t.asserts ++ [false] }

/-- What happens to one session's uploads. -/
inductive UploadAction
  /-- The logic worker handles a request. -/
  | request (os : FsOutcome) (data : Bytes)
  /-- The first `k` buffered bytes of the session's stream reach its file. -/
  | flush (k : Nat)

/-- One action on one session. -/
def UploadState.act (env : UploadEnv κ) (s : UploadState κ) : UploadAction → UploadState κ
  | .request os data => doUploadFileReq env os data s
  | .flush k => { s with files := s.files.flush 0 k }

end Handler

/-- A session that has had no request, over the given files. -/
def UploadState.init {κ : Type} (disk : Disk κ Byte) : UploadState κ := ⟨⟨disk, none⟩, [], [], []⟩

/-- The uploads of all sessions: the files are everyone's, a stream is its session's. -/
structure UploadSystem (ι κ : Type) where
  disk : Disk κ Byte
  /-- `m_file_out` of each session. -/
  outs : ι → Option (OutStream κ Byte)
  /-- The arguments of each session's `send`. -/
  sent : ι → List (ReqId × Json)
  asserts : List Bool
  createdDirs : List String

namespace UploadSystem

variable {ι κ : Type}

/-- Sessions that have had no request, over the given files. -/
def init (disk : Disk κ Byte) : UploadSystem ι κ := ⟨disk, fun _ => none, fun _ => [], [], []⟩

/-- The files as session `i` sees them. -/
def view (w : UploadSystem ι κ) (i : ι) : View κ Byte := ⟨w.disk, w.outs i⟩

/-- What a request of session `i` reads and changes. -/
def session (w : UploadSystem ι κ) (i : ι) : UploadState κ :=
  ⟨w.view i, w.sent i, w.asserts, w.createdDirs⟩

variable [DecidableEq ι] [DecidableEq κ]

omit [DecidableEq κ] in
/-- The system once session `i` is left with `s`. -/
def put (w : UploadSystem ι κ) (i : ι) (s : UploadState κ) : UploadSystem ι κ where
  disk := s.files.disk
  outs := Function.update w.outs i s.files.out
  sent := Function.update w.sent i s.sent
  asserts := s.asserts
  createdDirs := s.createdDirs

/-- A step of one session, chosen by the schedule. -/
def step (env : UploadEnv κ) (w : UploadSystem ι κ) (a : ι × UploadAction) :
    Option (UploadSystem ι κ) := some (w.put a.1 ((w.session a.1).act env a.2))

end UploadSystem

end ResourceServer
