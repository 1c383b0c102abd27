import Rail.Foundation.Lexical
import Rail.Nfs.Handles
import Rail.Nfs.Rpc

/-!
# What a client of the NFS gateway can reach

`src/nfs/server.cc`, all procedures of one gateway, as far as they ask the daemon for anything.

A handler is a coroutine.  It asks the daemon, it encodes and forgets paths in the table of handles
that all sessions share, and between these it is suspended, while others run.  So a handler is a
tree of what it asks of others, with a branch for each answer (`Handler`); the answers of the
daemon, whether there is a session to the daemon, and what the session has cached, are taken to be
anything.  `Gateway.step` runs any number of them, of any sessions, in any order, each with the
table as it is then.

A call comes as the bytes of its arguments, so a handle is whatever the client has put there.  It is
decoded, and then the path has to be inside the export (`insideExport`); a name has to be one
component (`namedSafely`).  The theorem says that this is enough: every path in a request to the
daemon names, in its lexical normal form, the root of the export or something below it.  The target
of a symbolic link is not a path in this sense.  It is text that the daemon stores and never
resolves.

Replies are left out, except for what they say about the outcome, and so are the windows that reads
are served from.
-/

namespace Rail.Nfs

open List
open Wire (Bytes Get Reader)
open Rpc (AcceptStatus Call)

def dot : UInt8 := 46

/-- `kNameLimit` -/
def nameLimit : ℕ := 255

/-- `kPathLimit` -/
def pathLimit : ℕ := 4096

/-- `kWriteLimit` -/
def writeLimit : ℕ := 1048576

/-! ## Paths -/

def joinPath (parent : Path) (name : Bytes) : Path :=
  if parent = [dot] then name else parent ++ slash :: name

def insideExport (path root : Path) : Bool :=
  if path = [] ∨ path.head? = some slash then false
  else if (Lexical.components slash path).any (· = [dot, dot]) then false
  else if root = [dot] then true
  else path = root || decide (root ++ [slash] <+: path)

def parentPath (path root : Path) : Path :=
  if path = root then root
  else
    let parent :=
      match cut path with
      | none => [dot]
      | some (parent, _) => parent
    if insideExport parent root then parent else root

def namedSafely (name : Bytes) : Bool :=
  name ≠ [] && name ≠ [dot] && name ≠ [dot, dot] && decide (slash ∉ name)

/-- A path names the root of the export or something below it. -/
def Under (root path : Path) : Prop :=
  Lexical.Place.Below (Lexical.normal slash dot root) (Lexical.normal slash dot path)

instance (root path : Path) : Decidable (Under root path) :=
  inferInstanceAs (Decidable (Lexical.Place.Below _ _))

section Paths

variable {root path : Path} {name : Bytes}

theorem Under.refl (root : Path) : Under root root := Lexical.Place.Below.refl _

theorem Under.only (h : Under root path) : ∀ p ∈ [path], Under root p := forall_mem_singleton.mpr h

/-- What `insideExport` has made sure of. -/
theorem of_insideExport (h : insideExport path root = true) :
    path ≠ [] ∧ path.head? ≠ some slash ∧ (∀ c ∈ Lexical.components slash path, c ≠ [dot, dot]) ∧
      (root = [dot] ∨ path = root ∨ root ++ [slash] <+: path) := by
  rw [insideExport] at h
  split_ifs at h with hstart hup hroot
  all_goals
    rw [not_or] at hstart
    refine ⟨hstart.1, hstart.2, fun c hc heq =>
      hup (List.any_eq_true.mpr ⟨c, hc, decide_eq_true heq⟩), ?_⟩
  · exact .inl hroot
  · rw [Bool.or_eq_true, decide_eq_true_iff, decide_eq_true_iff] at h
    exact .inr h

theorem under_of_insideExport (h : insideExport path root = true) : Under root path := by
  obtain ⟨hne, hrelative, hup, rfl | rfl | ⟨rest, rfl⟩⟩ := of_insideExport h
  · exact Lexical.below_here hrelative hup
  · exact .refl _
  · rw [append_assoc, singleton_append] at hrelative hup ⊢
    rw [Lexical.components_append] at hup
    refine Lexical.below_append ?_ fun c hc => hup c (mem_append_right _ hc)
    rintro rfl
    exact hrelative rfl

theorem under_parentPath (path root : Path) : Under root (parentPath path root) := by
  rw [parentPath]
  dsimp only
  split_ifs with hroot hinside
  · exact .refl root
  · exact under_of_insideExport hinside
  · exact .refl root

/-- A name is one component, and goes nowhere else. -/
theorem of_namedSafely (h : namedSafely name = true) :
    name ≠ [] ∧ name ≠ [dot, dot] ∧ slash ∉ name := by
  simp only [namedSafely, Bool.and_eq_true, decide_eq_true_iff] at h
  exact ⟨h.1.1.1, h.1.2, h.2⟩

theorem under_joinPath (hpath : insideExport path root = true) (hname : namedSafely name = true) :
    Under root (joinPath path name) := by
  obtain ⟨hne, hup, hslash⟩ := of_namedSafely hname
  have hcomponents : ∀ c ∈ Lexical.components slash name, c ≠ [dot, dot] := by
    rw [Lexical.components_of_not_mem hslash]
    intro c hc
    rw [mem_singleton.mp hc]
    exact hup
  have hjoin : Under path (joinPath path name) := by
    rw [joinPath]
    split_ifs with hhere
    · subst hhere
      refine Lexical.below_here (fun hhead => hslash ?_) hcomponents
      exact mem_of_head? hhead
    · exact Lexical.below_append (of_insideExport hpath).1 hcomponents
  exact (under_of_insideExport hpath).trans hjoin

end Paths

namespace Export

/-! ## What a handler asks -/

/-- A request to the daemon. -/
inductive Request where
  | stat (path : Path)
  | list (path : Path)
  | statFs (path : Path)
  | read (path : Path) (offset count : ℕ)
  | write (path : Path) (offset : UInt64) (data : Bytes)
  | fsync (path : Path)
  | createFile (path : Path) (mode : Option UInt32) (exclusive : Bool)
  | makeDirectory (path : Path) (mode : UInt32)
  | removeFile (path : Path)
  | removeDirectory (path : Path)
  | makeLink (path : Path) (points : Bytes)
  | readLink (path : Path)
  | hardLink (path target : Path)
  | rename (source target : Path)
  | truncate (path : Path) (size : UInt64)
  | setMode (path : Path) (mode : UInt32)
  deriving DecidableEq

/-- The paths in a request. -/
def Request.paths : Request → List Path
  | .stat path | .list path | .statFs path | .read path _ _ | .write path _ _ | .fsync path
  | .createFile path _ _ | .makeDirectory path _ | .removeFile path | .removeDirectory path
  | .makeLink path _ | .readLink path | .truncate path _ | .setMode path _ => [path]
  | .hardLink path target => [path, target]
  | .rename source target => [source, target]

/-- What the gateway looks at in an answer. -/
structure Answer where
  ok : Bool := true
  fileExists : Bool := false
  found : Bool := true
  directory : Bool := false
  ino : UInt64 := 1
  parentIno : UInt64 := 1
  names : List Bytes := []
  deriving DecidableEq

/-- A suspended handler: what it asks for, and how it goes on. -/
inductive Handler where
  | reply (status : UInt32)
  | refuse (status : AcceptStatus)
  | ask (r : Request) (k : Answer → Handler)
  | wait (k : Answer → Handler)
  /-- The pool of sessions to the daemon, or a cache, decides. -/
  | choose (yes no : Handler)
  /-- The entries of the directory that was listed last. -/
  | recall (k : List Bytes → Handler)
  | decode (h : Bytes) (k : Option Path → Handler)
  | encode (path : Path) (next : Handler)
  | forget (path : Path) (next : Handler)
  | pin (root : Path) (next : Handler)

/-- The root that is exported, `Readahead`, and the largest transfer of a session. -/
structure Options where
  root : Path
  readahead : ℕ
  transfer : ℕ

/-! ## Arguments -/

/-- Read the arguments; garbage is answered as such. -/
def withArgs {α : Type} (get : Get String α) (args : Bytes) (k : α → Handler) : Handler :=
  match get.run (Reader.start args) with
  | .error _ => .refuse .garbageArguments
  | .ok (a, r) => if r.ok then k a else .refuse .garbageArguments

def handle : Get String Bytes := Xdr.opaque_ handleSize

def name : Get String Bytes := Xdr.text pathLimit

structure Wanted where
  size : Option UInt64 := none
  mode : Option UInt32 := none
  deriving DecidableEq

/-- A field that is there if a flag before it says so. -/
def optional {α : Type} (get : Get String α) : Get String (Option α) := do
  if ← Xdr.boolean then return some (← get) else return none

def readWanted : Get String Wanted := do
  let mode ← optional Xdr.u32
  let _ ← optional Xdr.u32
  let _ ← optional Xdr.u32
  let size ← optional Xdr.u64
  let _ ← time
  let _ ← time
  return { size, mode }
where
  /-- One of the two times, which are not taken. -/
  time : Get String Unit := do
    if (← Xdr.u32) = 2 then
      let _ ← Xdr.u32
      let _ ← Xdr.u32
      return ()
    else return ()

/-! ## Steps of handlers -/

/-- `kOk` and the other outcomes. -/
def ok : UInt32 := 0

def errNoEnt : UInt32 := 2

def errIo : UInt32 := 5

def errExist : UInt32 := 17

def errNotDir : UInt32 := 20

def errInval : UInt32 := 22

def errRoFs : UInt32 := 30

def errNameTooLong : UInt32 := 63

def errStale : UInt32 := 70

def errNotSupp : UInt32 := 10004

/-- `pathOf`, of what was decoded. -/
def pathOf (root : Path) (found : Option Path) : Option Path :=
  found.filter fun path => insideExport path root

def withPath (root : Path) (raw : Bytes) (k : Path → Handler) : Handler :=
  .decode raw fun found =>
    match pathOf root found with
    | none => .reply errStale
    | some path => k path

/-- `Pool.take` -/
def lease (k : Handler) : Handler := .choose k (.reply errIo)

/-- A request whose failure is `replyBroken`. -/
def request (r : Request) (k : Answer → Handler) : Handler :=
  .ask r fun a => if a.ok then k a else .reply errIo

/-- Only an answer that could not say what was made costs a question. -/
def orAsk (path : Path) (made : Answer) (k : Handler) : Handler :=
  if made.ino ≠ 0 then k else request (.stat path) fun seen =>
    if seen.found then k else .reply errIo

/-- What a name that is to be made has to be. -/
def named (name : Bytes) (k : Handler) : Handler :=
  if name.length > nameLimit then .reply errNameTooLong
  else if !namedSafely name then .reply errInval
  else k

/-! ## Procedures -/

variable (o : Options)

def onGetAttr (args : Bytes) : Handler :=
  withArgs handle args fun raw => withPath o.root raw fun path =>
    lease (request (.stat path) fun info => if info.found then .reply ok else .reply errNoEnt)

def onLookup (args : Bytes) : Handler :=
  withArgs (do return (← handle, ← name)) args fun (raw, name) =>
    withPath o.root raw fun directory =>
    if name.length > nameLimit then .reply errNameTooLong
    else if name = [dot] then look directory
    else if name = [dot, dot] then look (parentPath directory o.root)
    else if !namedSafely name then .reply errNoEnt
    else look (joinPath directory name)
where
  look (target : Path) : Handler :=
    lease (request (.stat target) fun info =>
      if info.found then .encode target (.reply ok) else .reply errNoEnt)

def onAccess (args : Bytes) : Handler :=
  withArgs (do return (← handle, ← Xdr.u32)) args fun (raw, _) => withPath o.root raw fun path =>
    lease (request (.stat path) fun info => if info.found then .reply ok else .reply errNoEnt)

def onMakeDirectory (args : Bytes) : Handler :=
  withArgs (do return (← handle, ← name, ← readWanted)) args fun (raw, name, wanted) =>
    withPath o.root raw fun directory =>
    named name ( let target := joinPath directory name
      lease (request (.stat target) fun seen => if seen.found then .reply errExist
        else request (.makeDirectory target (wanted.mode.getD 0o755)) fun made =>
          orAsk target made (.encode target (.reply ok))))

def onRemoveDirectory (args : Bytes) : Handler :=
  withArgs (do return (← handle, ← name)) args fun (raw, name) =>
    withPath o.root raw fun directory =>
    if !namedSafely name then .reply errNoEnt
    else
      let target := joinPath directory name
      lease (request (.removeDirectory target) fun _ => .forget target (.reply ok))

def onRename (args : Bytes) : Handler :=
  withArgs (do return (← handle, ← name, ← handle, ← name)) args
    fun (rawFrom, fromName, rawTo, toName) =>
    withPath o.root rawFrom fun fromDir => withPath o.root rawTo fun toDir =>
      if !namedSafely fromName || !namedSafely toName then .reply errInval
      else
        let source := joinPath fromDir fromName
        let target := joinPath toDir toName
        lease (request (.rename source target) fun _ =>
          if source ≠ target then .forget source (.forget target (.reply ok)) else .reply ok)

def onSymlink (args : Bytes) : Handler :=
  withArgs (do return (← handle, ← name, ← readWanted, ← name)) args fun (raw, name, _, points) =>
    withPath o.root raw fun directory =>
      named name ( let target := joinPath directory name
        lease (request (.makeLink target points) fun made =>
        orAsk target made (.encode target (.reply ok))))

/-- The existing file comes first. -/
def onLink (args : Bytes) : Handler :=
  withArgs (do return (← handle, ← handle, ← name)) args fun (rawExisting, raw, name) =>
    withPath o.root rawExisting fun existing => withPath o.root raw fun directory =>
      named name (
        lease (request (.hardLink existing (joinPath directory name)) fun made =>
        orAsk existing made (.reply ok)))

def onReadLink (args : Bytes) : Handler :=
  withArgs handle args fun raw => withPath o.root raw fun path =>
    lease (.ask (.readLink path) fun points => if points.ok then .reply ok else .reply errInval)

def onWrite (args : Bytes) : Handler :=
  withArgs (do
    let raw ← handle
    let offset ← Xdr.u64
    let count ← Xdr.u32
    let _ ← Xdr.u32
    return (raw, offset, count, ← Xdr.opaque_ writeLimit)) args fun (raw, offset, count, data) =>
      withPath o.root raw fun path =>
        if data.length ≠ count.toNat then .reply errInval
        else lease (request (.write path offset data) fun _ => .reply ok)

def onCommit (args : Bytes) : Handler :=
  withArgs (do return (← handle, ← Xdr.u64, ← Xdr.u32)) args fun (raw, _, _) =>
    withPath o.root raw fun path =>
    lease (request (.fsync path) fun _ => .reply ok)

/-- An exclusive create is read and then refused, before its handle is looked at. -/
def onCreate (args : Bytes) : Handler :=
  withArgs (do
    let raw ← handle
    let name ← name
    let how ← Xdr.u32
    if how = 2 then
      let _ ← Xdr.fixed 8
      return (raw, name, how, ({} : Wanted))
    else return (raw, name, how, ← readWanted)) args fun (raw, name, how, wanted) =>
      if how > 2 then .refuse .garbageArguments
      else if how = 2 then .reply errNotSupp
      else withPath o.root raw fun directory =>
        named name ( let target := joinPath directory name
          lease (.ask (.createFile target wanted.mode (how = 1)) fun made =>
            if made.ok then orAsk target made (.encode target (.reply ok))
            else if made.fileExists then .reply errExist
            else .reply errIo))

def onSetAttr (args : Bytes) : Handler :=
  withArgs (do
    let raw ← handle
    let wanted ← readWanted
    let _ ← optional (do return (← Xdr.u32, ← Xdr.u32))
    return (raw, wanted)) args fun (raw, wanted) => withPath o.root raw fun path =>
      lease (sized path wanted.size (moded path wanted.mode))
where
  sized (path : Path) (size : Option UInt64) (k : Handler) : Handler :=
    match size with
    | none => k
    | some size => request (.truncate path size) fun _ => k
  moded (path : Path) (mode : Option UInt32) : Handler :=
    match mode with
    | none => .reply ok
    | some mode => request (.setMode path mode) fun _ => .reply ok

def onRemove (args : Bytes) : Handler :=
  withArgs (do return (← handle, ← name)) args fun (raw, name) =>
    withPath o.root raw fun directory =>
    if !namedSafely name then .reply errNoEnt
    else
      let target := joinPath directory name
      lease (request (.removeFile target) fun _ => .forget target (.reply ok))

/-- `kReadLimit`, and the page of a session. -/
def readCeiling : ℕ := min 1048576 o.transfer

/-- A read that goes on where the last one of its file ended is served out of a window, which may
have to be filled. -/
def onRead (args : Bytes) : Handler :=
  withArgs (do return (← handle, ← Xdr.u64, ← Xdr.u32)) args fun (raw, offset, count) =>
    withPath o.root raw fun path =>
    if o.readahead > count.toNat then .choose (windowed path offset.toNat)
      (plain path offset.toNat count.toNat)
    else plain path offset.toNat count.toNat
where
  windowed (path : Path) (offset : ℕ) : Handler :=
    let room := min o.readahead o.transfer
    let start := if room > 0 then offset / room * room else offset
    .choose (.reply ok) (lease (request (.read path start room) fun _ => .reply ok))
  plain (path : Path) (offset count : ℕ) : Handler :=
    let want := min count (readCeiling o)
    lease (if want = 0 then .reply ok else request (.read path offset want) fun _ => .reply ok)

/-- The handles of the entries, as long as the reply has room. -/
def encodeEach : List Path → Handler
  | [] => .reply ok
  | target :: rest => .encode target (.choose (encodeEach rest) (.reply ok))

/-- The listing of the last call is used again where it was of the same directory, and not for a
first part. -/
def onReadDir (withAttrs : Bool) (args : Bytes) : Handler :=
  withArgs (do
    let raw ← handle
    let cookie ← Xdr.u64
    let _ ← Xdr.fixed 8
    let _ ← Xdr.u32
    if withAttrs then
      let _ ← Xdr.u32
      return (raw, cookie)
    else return (raw, cookie)) args fun (raw, cookie) => withPath o.root raw fun path =>
      if cookie = 0 then relist path 0
      else .choose (relist path cookie.toNat) (.recall fun names => entries path names cookie.toNat)
where
  entries (path : Path) (names : List Bytes) (cookie : ℕ) : Handler :=
    if withAttrs then encodeEach ((path :: parentPath path o.root :: names.map (joinPath path)).drop
      cookie) else .reply ok
  relist (path : Path) (cookie : ℕ) : Handler :=
    lease (request (.list path) fun listed => if !listed.found then .reply errNotDir
      else
        let names := listed.names.mergeSort fun a b => decide (a ≤ b)
        if (if path = o.root then listed.ino else listed.parentIno) ≠
          0 then entries path names cookie
        else request (.stat (parentPath path o.root)) fun above =>
          if above.found then entries path names cookie else .reply errNoEnt)

def onFsStat (args : Bytes) : Handler :=
  withArgs handle args fun raw => withPath o.root raw fun path =>
    lease (request (.statFs path) fun _ => .reply ok)

def onFsInfo (args : Bytes) : Handler :=
  withArgs handle args fun raw => withPath o.root raw fun _ => lease (.reply ok)

def onPathConf (args : Bytes) : Handler :=
  withArgs handle args fun raw => withPath o.root raw fun _ => .reply ok

variable (c : Call)

def onMount : Handler :=
  if c.version ≠ Rpc.programVersion then .refuse .programMismatch
  else
    match c.procedure.toNat with
    | 0 | 2 | 3 | 4 | 5 => .reply ok
    | 1 =>
      withArgs name c.args fun _ =>
        lease (request (.stat o.root) fun info =>
          if info.found && info.directory then .pin o.root (.encode o.root (.reply ok))
          else .reply errNoEnt)
    | _ => .refuse .procedureUnavailable

def onNfs : Handler :=
  if c.version ≠ Rpc.programVersion then .refuse .programMismatch
  else
    match c.procedure.toNat with
    | 0 => .refuse .success
    | 1 => onGetAttr o c.args
    | 2 => onSetAttr o c.args
    | 3 => onLookup o c.args
    | 4 => onAccess o c.args
    | 5 => onReadLink o c.args
    | 6 => onRead o c.args
    | 7 => onWrite o c.args
    | 8 => onCreate o c.args
    | 9 => onMakeDirectory o c.args
    | 10 => onSymlink o c.args
    | 11 => .reply errRoFs
    | 12 => onRemove o c.args
    | 13 => onRemoveDirectory o c.args
    | 14 => onRename o c.args
    | 15 => onLink o c.args
    | 16 => onReadDir o false c.args
    | 17 => onReadDir o true c.args
    | 18 => onFsStat o c.args
    | 19 => onFsInfo o c.args
    | 20 => onPathConf o c.args
    | 21 => onCommit o c.args
    | _ => .refuse .procedureUnavailable

/-- `kNfsProgram` and `kMountProgram` -/
def dispatch : Handler :=
  if c.program = 100005 then onMount o c
  else if c.program = 100003 then onNfs o c
  else .refuse .programUnavailable

/-! ## The gateway -/

structure Gateway where
  handles : Handles := {}
  running : List Handler := []
  asked : List Request := []

inductive Event where
  | call (c : Call)
  /-- A handler goes on by one step.  `yes` and `names` are what the pool and the caches say. -/
  | go (i : ℕ) (yes : Bool) (names : List Bytes)
  | answer (i : ℕ) (a : Answer)

namespace Gateway

def put (s : Gateway) (i : ℕ) (h : Handler) : Gateway := { s with running := s.running.set i h }

def step (digest : Path → Proto.Digest) (s : Gateway) : Event → Option Gateway
  | .call c => some { s with running := s.running ++ [dispatch o c] }
  | .go i yes names =>
    match s.running[i]? with
    | some (.ask r k) => some ({ s with asked := s.asked ++ [r] }.put i (.wait k))
    | some (.choose y n) => some (s.put i (if yes then y else n))
    | some (.recall k) => some (s.put i (k names))
    | some (.decode h k) => some (s.put i (k (s.handles.decode h)))
    | some (.encode path next) =>
        some ({ s with handles := (s.handles.encode digest path).2 }.put i next)
    | some (.forget path next) => some ({ s with handles := s.handles.forget path }.put i next)
    | some (.pin root next) => some ({ s with handles := s.handles.pin root }.put i next)
    | _ => none
  | .answer i a =>
    match s.running[i]? with
    | some (.wait k) => some (s.put i (k a))
    | _ => none

end Gateway

/-! ## Confinement -/

/-- Whatever it is told, a handler asks only for paths below the root. -/
def Handler.Confined (root : Path) : Handler → Prop
  | .reply _ | .refuse _ => True
  | .ask r k => (∀ path ∈ r.paths, Under root path) ∧ ∀ a, (k a).Confined root
  | .wait k => ∀ a, (k a).Confined root
  | .choose y n => y.Confined root ∧ n.Confined root
  | .recall k => ∀ names, (k names).Confined root
  | .decode _ k => ∀ found, (k found).Confined root
  | .encode _ next | .forget _ next | .pin _ next => next.Confined root

section Combinators

variable {root path : Path} {r : Request} {h : Handler} {name : Bytes}

theorem confined_withArgs {α : Type} {get : Get String α} {args : Bytes} {k : α → Handler}
    (hk : ∀ a, (k a).Confined root) : (withArgs get args k).Confined root := by
  rw [withArgs]
  split
  · trivial
  · split_ifs
    · exact hk _
    · trivial

theorem confined_withPath {raw : Bytes} {k : Path → Handler}
    (hk : ∀ path, insideExport path root = true → (k path).Confined root) :
    (withPath root raw k).Confined root := by
  intro found
  dsimp only
  cases hpath : pathOf root found with
  | none => trivial
  | some path =>
    rw [pathOf] at hpath
    exact hk path (Option.filter_eq_some_iff.mp hpath).2

theorem confined_lease (hh : h.Confined root) : (lease h).Confined root := ⟨hh, trivial⟩

variable {k : Answer → Handler}

theorem confined_request (hr : ∀ path ∈ r.paths, Under root path) (hk : ∀ a, (k a).Confined root) :
    (request r k).Confined root := by
  refine ⟨hr, fun a => ?_⟩
  dsimp only
  split_ifs
  · exact hk a
  · trivial

theorem confined_orAsk {made : Answer} (hpath : Under root path) (hh : h.Confined root) :
    (orAsk path made h).Confined root := by
  rw [orAsk]
  split_ifs
  · exact hh
  · refine confined_request hpath.only fun seen => ?_
    split_ifs
    · exact hh
    · trivial

theorem confined_named (hh : namedSafely name = true → h.Confined root) :
    (named name h).Confined root := by
  rw [named]
  split_ifs with hlong hsafe
  · trivial
  · trivial
  · exact hh (by simpa using hsafe)

end Combinators

variable {o : Options}

theorem confined_onGetAttr (args : Bytes) : (onGetAttr o args).Confined o.root := by
  refine confined_withArgs fun raw => confined_withPath fun path hpath => confined_lease ?_
  refine confined_request (under_of_insideExport hpath).only fun info => ?_
  split_ifs <;> trivial

theorem confined_look {target : Path} (htarget : Under o.root target) :
    (onLookup.look target).Confined o.root := by
  refine confined_lease (confined_request htarget.only fun info => ?_)
  split_ifs <;> trivial

section

variable (args : Bytes)
include args

theorem confined_onLookup : (onLookup o args).Confined o.root := by
  refine confined_withArgs fun a => confined_withPath fun directory hpath => ?_
  split_ifs with hlong hhere hup hsafe
  · trivial
  · exact confined_look (under_of_insideExport hpath)
  · exact confined_look (under_parentPath directory o.root)
  · trivial
  · exact confined_look (under_joinPath hpath (by simpa using hsafe))

theorem confined_onAccess : (onAccess o args).Confined o.root := by
  refine confined_withArgs fun a => confined_withPath fun path hpath => confined_lease ?_
  refine confined_request (under_of_insideExport hpath).only fun info => ?_
  split_ifs <;> trivial

theorem confined_onMakeDirectory : (onMakeDirectory o args).Confined o.root := by
  refine confined_withArgs fun a => confined_withPath fun directory hpath =>
    confined_named fun hname => confined_lease ?_
  have htarget := under_joinPath hpath hname
  refine confined_request htarget.only fun seen => ?_
  split_ifs
  · trivial
  · exact confined_request htarget.only fun made => confined_orAsk htarget trivial

theorem confined_onRemoveDirectory : (onRemoveDirectory o args).Confined o.root := by
  refine confined_withArgs fun a => confined_withPath fun directory hpath => ?_
  split_ifs with hsafe
  · trivial
  · exact confined_lease (confined_request (under_joinPath hpath (by simpa using hsafe)).only
      fun _ => trivial)

theorem confined_onRename : (onRename o args).Confined o.root := by
  refine confined_withArgs fun a => confined_withPath fun fromDir hfrom =>
    confined_withPath fun toDir hto => ?_
  split_ifs with hsafe
  · trivial
  · obtain ⟨hfromName, htoName⟩ : namedSafely a.2.1 = true ∧ namedSafely a.2.2.2 = true := by
      simpa using hsafe
    have hpair := forall_mem_cons.mpr ⟨under_joinPath hfrom hfromName,
      (under_joinPath hto htoName).only⟩
    refine confined_lease (confined_request hpair fun _ => ?_)
    split_ifs <;> trivial

theorem confined_onSymlink : (onSymlink o args).Confined o.root := by
  refine confined_withArgs fun a => confined_withPath fun directory hpath =>
    confined_named fun hname => confined_lease ?_
  have htarget := under_joinPath hpath hname
  exact confined_request htarget.only fun made => confined_orAsk htarget trivial

theorem confined_onLink : (onLink o args).Confined o.root := by
  refine confined_withArgs fun a => confined_withPath fun existing hexisting =>
    confined_withPath fun directory hpath =>
    confined_named fun hname => confined_lease ?_
  have hold := under_of_insideExport hexisting
  have hpair := forall_mem_cons.mpr ⟨hold, (under_joinPath hpath hname).only⟩
  exact confined_request hpair fun made => confined_orAsk hold trivial

theorem confined_onReadLink : (onReadLink o args).Confined o.root := by
  refine confined_withArgs fun raw => confined_withPath fun path hpath => confined_lease ?_
  refine ⟨(under_of_insideExport hpath).only, fun points => ?_⟩
  dsimp only
  split_ifs <;> trivial

theorem confined_onWrite : (onWrite o args).Confined o.root := by
  refine confined_withArgs fun a => confined_withPath fun path hpath => ?_
  split_ifs
  · trivial
  · exact confined_lease (confined_request (under_of_insideExport hpath).only fun _ => trivial)

theorem confined_onCommit : (onCommit o args).Confined o.root :=
  confined_withArgs fun _ => confined_withPath fun _ hpath =>
    confined_lease (confined_request (under_of_insideExport hpath).only fun _ => trivial)

theorem confined_onCreate : (onCreate o args).Confined o.root := by
  refine confined_withArgs fun a => ?_
  dsimp only
  split_ifs
  · trivial
  · trivial
  · refine confined_withPath fun directory hpath => confined_named fun hname => confined_lease ?_
    have htarget := under_joinPath hpath hname
    refine ⟨htarget.only, fun made => ?_⟩
    dsimp only
    split_ifs
    · exact confined_orAsk htarget trivial
    · trivial
    · trivial

theorem confined_onSetAttr : (onSetAttr o args).Confined o.root := by
  refine confined_withArgs fun a => confined_withPath fun path hpath => confined_lease ?_
  have hunder := under_of_insideExport hpath
  have hmoded : (onSetAttr.moded path a.2.mode).Confined o.root := by
    cases a.2.mode with
    | none => trivial
    | some mode => exact confined_request hunder.only fun _ => trivial
  cases a.2.size with
  | none => exact hmoded
  | some size => exact confined_request hunder.only fun _ => hmoded

theorem confined_onRemove : (onRemove o args).Confined o.root := by
  refine confined_withArgs fun a => confined_withPath fun directory hpath => ?_
  split_ifs with hsafe
  · trivial
  · exact confined_lease (confined_request (under_joinPath hpath (by simpa using hsafe)).only
      fun _ => trivial)

theorem confined_onRead : (onRead o args).Confined o.root := by
  refine confined_withArgs fun a => confined_withPath fun path hpath => ?_
  have hunder := under_of_insideExport hpath
  have hplain : ∀ offset count, (onRead.plain o path offset count).Confined o.root := by
    intro offset count
    refine confined_lease ?_
    split_ifs
    · trivial
    · exact confined_request hunder.only fun _ => trivial
  split_ifs
  · exact ⟨⟨trivial, confined_lease (confined_request hunder.only fun _ => trivial)⟩, hplain _ _⟩
  · exact hplain _ _

end

theorem confined_encodeEach (root : Path) (targets : List Path) :
    (encodeEach targets).Confined root := by
  induction targets with
  | nil => trivial
  | cons target rest ih => exact ⟨ih, trivial⟩

theorem confined_onReadDir (withAttrs : Bool) (args : Bytes) :
    (onReadDir o withAttrs args).Confined o.root := by
  refine confined_withArgs fun a => confined_withPath fun path hpath => ?_
  have hentries : ∀ names cookie,
      (onReadDir.entries o withAttrs path names cookie).Confined o.root := by
    intro names cookie
    rw [onReadDir.entries]
    split_ifs
    · exact confined_encodeEach _ _
    · trivial
  have habove : ∀ names cookie, (request (.stat (parentPath path o.root)) fun above =>
      if above.found then onReadDir.entries o withAttrs path names cookie else .reply
        errNoEnt).Confined o.root := by
    intro names cookie
    refine confined_request (under_parentPath path o.root).only fun above => ?_
    split_ifs
    · exact hentries names cookie
    · trivial
  have hrelist : ∀ cookie, (onReadDir.relist o withAttrs path cookie).Confined o.root := by
    intro cookie
    refine confined_lease (confined_request (under_of_insideExport hpath).only fun listed => ?_)
    split_ifs
    · trivial
    · exact hentries _ _
    · exact habove _ _
    · exact hentries _ _
    · exact habove _ _
  split_ifs
  · exact hrelist 0
  · exact ⟨hrelist _, fun names => hentries names _⟩

theorem confined_onFsStat (args : Bytes) : (onFsStat o args).Confined o.root :=
  confined_withArgs fun _ => confined_withPath fun _ hpath =>
    confined_lease (confined_request (under_of_insideExport hpath).only fun _ => trivial)

theorem confined_onFsInfo (args : Bytes) : (onFsInfo o args).Confined o.root :=
  confined_withArgs fun _ => confined_withPath fun _ _ => confined_lease trivial

theorem confined_onPathConf (args : Bytes) : (onPathConf o args).Confined o.root :=
  confined_withArgs fun _ => confined_withPath fun _ _ => trivial

theorem confined_onMount : (onMount o c).Confined o.root := by
  rw [onMount]
  split_ifs
  · trivial
  · split
    case h_6 =>
      refine confined_withArgs fun _ =>
        confined_lease (confined_request (Under.refl o.root).only fun info => ?_)
      split_ifs <;> trivial
    all_goals trivial

theorem confined_onNfs : (onNfs o c).Confined o.root := by
  rw [onNfs]
  split_ifs
  · trivial
  · split
    · trivial
    · exact confined_onGetAttr c.args
    · exact confined_onSetAttr c.args
    · exact confined_onLookup c.args
    · exact confined_onAccess c.args
    · exact confined_onReadLink c.args
    · exact confined_onRead c.args
    · exact confined_onWrite c.args
    · exact confined_onCreate c.args
    · exact confined_onMakeDirectory c.args
    · exact confined_onSymlink c.args
    · trivial
    · exact confined_onRemove c.args
    · exact confined_onRemoveDirectory c.args
    · exact confined_onRename c.args
    · exact confined_onLink c.args
    · exact confined_onReadDir false c.args
    · exact confined_onReadDir true c.args
    · exact confined_onFsStat c.args
    · exact confined_onFsInfo c.args
    · exact confined_onPathConf c.args
    · exact confined_onCommit c.args
    · trivial

theorem confined_dispatch : (dispatch o c).Confined o.root := by
  rw [dispatch]
  split_ifs
  · exact confined_onMount c
  · exact confined_onNfs c
  · trivial

namespace Gateway

/-- All that was asked for is below the root, and all that will be. -/
structure Confined (root : Path) (s : Gateway) : Prop where
  asked : ∀ r ∈ s.asked, ∀ path ∈ r.paths, Under root path
  running : ∀ h ∈ s.running, h.Confined root

variable {s t : Gateway} {root : Path} {digest : Path → Proto.Digest} {i : ℕ}

theorem Confined.put (hs : s.Confined root) {h : Handler} (hh : h.Confined root) :
    (s.put i h).Confined root :=
  ⟨hs.asked, fun g hg => (mem_or_eq_of_mem_set hg).elim (hs.running g) fun heq => heq ▸ hh⟩

/-- The table of handles is not relied on. -/
theorem Confined.handles (hs : s.Confined root) (handles : Handles) :
    Confined root { s with handles } :=
  ⟨hs.asked, hs.running⟩

theorem Confined.go (hs : s.Confined o.root) {yes : Bool} {names : List Bytes}
    (hstep : s.step o digest (.go i yes names) = some t) : t.Confined o.root := by
  rw [step] at hstep
  cases hi : s.running[i]? with
  | none =>
    rw [hi] at hstep
    cases hstep
  | some h =>
    have hh := hs.running h (mem_of_getElem? hi)
    rw [hi] at hstep
    cases h with
    | reply status | refuse status | wait k => cases hstep
    | ask r k =>
      cases hstep
      have hasked : Confined o.root { s with asked := s.asked ++ [r] } :=
        ⟨fun q hq => (mem_append.mp hq).elim (hs.asked q) fun hq => mem_singleton.mp hq ▸ hh.1,
          hs.running⟩
      exact hasked.put hh.2
    | choose y n =>
      cases hstep
      refine hs.put ?_
      split_ifs
      · exact hh.1
      · exact hh.2
    | «recall» k =>
      cases hstep
      exact hs.put (hh names)
    | decode raw k =>
      cases hstep
      exact hs.put (hh _)
    | encode path next | forget path next | pin path next =>
      cases hstep
      exact (hs.handles _).put hh

theorem Confined.answer (hs : s.Confined o.root) {a : Answer}
    (hstep : s.step o digest (.answer i a) = some t) : t.Confined o.root := by
  rw [step] at hstep
  split at hstep
  next k hi =>
    cases hstep
    exact hs.put (hs.running _ (mem_of_getElem? hi) a)
  · cases hstep

theorem Confined.step (hs : s.Confined o.root) {e : Event} (hstep : s.step o digest e = some t) :
    t.Confined o.root := by
  cases e with
  | call c =>
    cases hstep
    refine ⟨hs.asked, fun h hh => (mem_append.mp hh).elim (hs.running h) fun hh => ?_⟩
    rw [mem_singleton.mp hh]
    exact confined_dispatch c
  | go i yes names => exact hs.go hstep
  | answer i a => exact hs.answer hstep

/-- **The gateway confines its clients.**  Whatever calls come, with whatever bytes for handles and
names, however their handlers run beside each other and whatever the daemon answers, every path in
every request to the daemon names the root of the export or something below it.  The table of
handles may hold anything from the start. -/
theorem clients_confined (digest : Path → Proto.Digest) (o : Options) (handles : Handles)
    (es : List Event) (s : Gateway) (hrun : Runs.exec (step o digest) { handles } es = some s) :
    ∀ r ∈ s.asked, ∀ path ∈ r.paths, Under o.root path := by
  have hstart : Confined o.root { handles } := ⟨nofun, nofun⟩
  have hend : s.Confined o.root :=
    Runs.exec_invariant (I := Confined o.root) (fun hs _ hstep => hs.step hstep) hstart
      (Runs.meets_true es _) hrun
  exact hend.asked

/-- `Lookup` of a name in a directory whose handle the client has made up. -/
def lookupCall (directory : Path) (name : Bytes) : Call where
  xid := 1
  program := 100003
  version := 3
  procedure := 3
  args := Wire.be 4 64 ++ Handles.inlineHandle directory ++ (Wire.be 4 name.length ++ name ++
    List.replicate (Xdr.padding name.length) 0)

/-- Below `e`, the parent of `e/a` and the parent of `e` are both looked up; a handle for `f` is
stale. -/
theorem clients_confined_parent :
    ∃ s, Runs.exec (step { root := [101], readahead := 0, transfer := 0 } fun _ => .zero) {}
        [.call (lookupCall [101, 47, 97] [46, 46]), .call (lookupCall [101] [46, 46]),
        .call (lookupCall [102] [97]), .go 0 true [], .go 0 true [], .go 0 true [], .go 1 true [],
        .go 1 true [], .go 1 true [], .go 2 true []] = some s ∧
      s.asked = [.stat [101], .stat [101]] ∧ ∀ r ∈ s.asked, ∀ path ∈ r.paths, Under [101] path :=
  Runs.exists_exec rfl fun hs => ⟨rfl, clients_confined _ _ _ _ _ hs⟩

end Gateway

end Export
end Rail.Nfs
