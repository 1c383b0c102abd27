import Rail.Foundation.ByteFile
import Rail.Foundation.Coroutine

/-!
# Operations on buffers

The transfers hand buffers to the kernel and to the fabric: reads and writes of files through
`Uring`, sends and receives of pages through a `DataChannel`.  An operation is started, or refused;
it ends some time later, when it likes; and whoever started it may wait for its end.  Until it has
ended the buffer is not the program's.

`Io` is what a transfer works on: every operation it has started, the temporary file of its
`FileWriter`, and what is found at the destinations.  The control channel answers as it likes; what
was told over it is kept.

`Env` is what is assumed of the other ends: what a read of the source gives, what a receive brings,
what is heard.
-/

namespace Rail.Transfer

open List ByteFile Coroutine

abbrev Bytes := List UInt8

/-- What the kernel or the fabric does with a buffer. -/
inductive Work where
  | read (offset length : ℕ)
  | write (offset : ℕ) (bytes : Bytes)
  | send (key : ℕ) (bytes : Bytes)
  | recv (key length : ℕ)
  deriving DecidableEq

/-- How it ended: the bytes are those read or received. -/
inductive Outcome where
  | done (bytes : Bytes)
  | failed
  deriving DecidableEq

structure Operation where
  work : Work
  outcome : Option Outcome := none
  deriving DecidableEq

/-- What changed at a path, and what is noted of it. -/
inductive Change (π γ : Type) where
  | renamed (path : π) (bytes : Bytes) (note : γ)
  | unlinked (path : π)
  deriving DecidableEq

/-- `π` are the paths, `μ` the control messages, `γ` what is noted of a rename. -/
structure Io (π μ γ : Type) where
  /-- The operations started, by their number. -/
  ops : List Operation := []
  /-- What a submit failed for after its entry had been made: the ring names the buffer still. -/
  left : List Work := []
  /-- The temporary file, when there is one. -/
  temp : Option Bytes := none
  /-- What is found at a path. -/
  files : π → Option Bytes
  told : List μ := []
  /-- For the record: what changed at the paths. -/
  changes : List (Change π γ) := []

/-- What a transfer asks for. -/
inductive Call (π μ γ : Type) where
  /-- A page of the pool; `false` when the pool has no memory.  `held` is how many pages wait in the
  queues of the one who asks. -/
  | acquire (held : ℕ)
  /-- A send or a receive, which cannot be refused. -/
  | start (work : Work)
  /-- `Uring::submit`. -/
  | submit (work : Work)
  /-- Wait for the end of an operation. -/
  | await (id : ℕ)
  /-- What lies in a page past its end. -/
  | slack (length : ℕ)
  | tell (m : μ)
  | hear
  /-- Open a file to read it. -/
  | open_
  /-- `FileReader::read` of the basis of a delta. -/
  | consult (offset length : ℕ)
  /-- Open a temporary file. -/
  | create
  /-- `FileWriter::write`. -/
  | put (offset : ℕ) (bytes : Bytes)
  | truncate (size : ℕ)
  /-- `fsync`, `fchmod` and `futimens`. -/
  | attributes
  | rename (path : π) (note : γ)
  /-- Put a symbolic link in the place of what is there. -/
  | link (path : π)
  | remove
  /-- `DataChannel::close`. -/
  | close

/-- What the answer is.  A `Bool` says whether it worked. -/
def Answer {π μ γ : Type} : Call π μ γ → Type
  | .start _ => ℕ
  | .submit _ => Option ℕ
  | .await _ => Outcome
  | .slack _ => Bytes
  | .hear => Option μ
  | .consult _ _ => Option Bytes
  | .remove => Unit
  | .close => Unit
  | _ => Bool

/-- What the other ends may do. -/
structure Env (μ : Type) where
  reads : (offset length : ℕ) → Bytes → Prop := fun _ _ _ => True
  brings : (key length : ℕ) → Bytes → Prop := fun _ _ _ => True
  /-- What the basis of a delta may read as. -/
  basis : (offset length : ℕ) → Bytes → Prop := fun _ _ _ => True
  hears : μ → Prop := fun _ => True

namespace Io

variable {π μ γ : Type} (w : Io π μ γ)

def begin_ (work : Work) : Io π μ γ := { w with ops := w.ops ++ [⟨work, none⟩] }

def finish (id : ℕ) (work : Work) (r : Outcome) : Io π μ γ :=
  { w with ops := w.ops.set id ⟨work, some r⟩ }

/-- Bytes reach the temporary file. -/
def land (offset : ℕ) (bytes : Bytes) : Io π μ γ :=
  { w with temp := w.temp.map fun t => pwrite t offset bytes }

/-- The operation has not ended. -/
def Pending (id : ℕ) : Prop := ∃ work, w.ops[id]? = some ⟨work, none⟩

end Io

section World

variable {π μ γ : Type} [DecidableEq π]

/-- How an operation may end, and what the end does.  A failed write may have left anything in its
range. -/
inductive Ends (e : Env μ) (w : Io π μ γ) (id : ℕ) : Work → Outcome → Io π μ γ → Prop
  | read {offset length : ℕ} {bytes : Bytes} : e.reads offset length bytes →
      Ends e w id (.read offset length) (.done bytes)
      (w.finish id (.read offset length) (.done bytes))
  | recv {key length : ℕ} {bytes : Bytes} : e.brings key length bytes →
      Ends e w id (.recv key length) (.done bytes) (w.finish id (.recv key length) (.done bytes))
  | send {key : ℕ} {bytes : Bytes} :
      Ends e w id (.send key bytes) (.done []) (w.finish id (.send key bytes) (.done []))
  | write {offset : ℕ} {bytes : Bytes} :
      Ends e w id (.write offset bytes) (.done [])
      ((w.finish id (.write offset bytes) (.done [])).land offset bytes)
  | failedRead {offset length : ℕ} :
      Ends e w id (.read offset length) .failed (w.finish id (.read offset length) .failed)
  | failedRecv {key length : ℕ} : Ends e w id (.recv key length) .failed
      (w.finish id (.recv key length) .failed)
  | failedSend {key : ℕ} {bytes : Bytes} :
      Ends e w id (.send key bytes) .failed (w.finish id (.send key bytes) .failed)
  | failedWrite {offset : ℕ} {bytes torn : Bytes} : torn.length ≤ bytes.length →
      Ends e w id (.write offset bytes) .failed
      ((w.finish id (.write offset bytes) .failed).land offset torn)

/-- The kernel or the fabric ends one operation. -/
def drift (e : Env μ) (w w' : Io π μ γ) : Prop :=
  ∃ id work r, w.ops[id]? = some ⟨work, none⟩ ∧ Ends e w id work r w'

/-- The temporary file in its place. -/
def Io.renamed (w : Io π μ γ) (path : π) (t : Bytes) (note : γ) : Io π μ γ :=
  { w with
    temp := none, files := Function.update w.files path (some t), changes :=
      w.changes ++ [.renamed path t note] }

/-- What was at a path is gone. -/
def Io.unlinked (w : Io π μ γ) (path : π) : Io π μ γ :=
  { w with files := Function.update w.files path none, changes := w.changes ++ [.unlinked path] }

/-- It worked, or nothing changed. -/
def Worked (ok : Bool) (next w w' : Io π μ γ) : Prop := w' = if ok then next else w

/-- The answers to a call, and what they do. -/
def perform (e : Env μ) (w : Io π μ γ) : (c : Call π μ γ) → Answer c → Io π μ γ → Prop
  | .acquire _, _, w' => w' = w
  | .start work, id, w' => id = w.ops.length ∧ w' = w.begin_ work
  -- `Uring::post` fails for want of an entry, or when the one it made cannot be handed over
  | .submit work, id, w' =>
      (id = none ∧ (w' = w ∨ w' = { w with left := w.left ++ [work] })) ∨
      (id = some w.ops.length ∧ w' = w.begin_ work)
  | .await id, r, w' => (∃ work, w.ops[id]? = some ⟨work, some r⟩) ∧ w' = w
  | .slack length, bytes, w' => List.length bytes = length ∧ w' = w
  | .tell m, ok, w' => Worked ok { w with told := w.told ++ [m] } w w'
  | .hear, m, w' => (∀ v, m = some v → e.hears v) ∧ w' = w
  | .open_, _, w' => w' = w
  | .consult offset length, bytes, w' => (∀ b, bytes = some b → e.basis offset length b) ∧ w' = w
  | .create, ok, w' => Worked ok { w with temp := some [] } w w'
  | .put offset bytes, ok, w' => (ok = true ∧ w' = w.land offset bytes) ∨
      (ok = false ∧ ∃ torn : Bytes, torn.length ≤ bytes.length ∧ w' = w.land offset torn)
  | .truncate size, ok, w' => Worked ok { w with temp := w.temp.map fun t => truncate t size } w w'
  | .attributes, _, w' => w' = w
  | .rename path note, ok, w' =>
      (ok = false ∧ w' = w) ∨ (ok = true ∧ ∃ t, w.temp = some t ∧ w' = w.renamed path t note)
  | .link path, ok, w' => (ok = false ∧ w' = w) ∨ w' = w.unlinked path
  | .remove, _, w' => w' = { w with temp := none }
  | .close, _, w' => w' = w

/-- The world of a transfer. -/
def io (e : Env μ) : World (Call π μ γ) Answer (Io π μ γ) := ⟨perform e, drift e⟩

end World

/-! ## What has not ended -/

variable {work : Work} {id : ℕ}

section Pending

variable {π μ γ : Type} {w : Io π μ γ}

/-- Whatever has not ended is among these operations. -/
def Covered (w : Io π μ γ) (ids : List ℕ) : Prop := ∀ id, w.Pending id → id ∈ ids

variable {ids : List ℕ}

theorem covered_of_ops_nil (h : w.ops = []) : Covered w ids := by
  rintro id ⟨work, hid⟩
  rw [h] at hid
  cases hid

theorem pending_begin (h : (w.begin_ work).Pending id) : w.Pending id ∨ id = w.ops.length := by
  obtain ⟨k, hk⟩ := h
  rcases Nat.lt_trichotomy id w.ops.length with hlt | heq | hgt
  · refine .inl ⟨k, ?_⟩
    rwa [Io.begin_, getElem?_append_left hlt] at hk
  · exact .inr heq
  · rw [Io.begin_, getElem?_append_right (Nat.le_of_lt hgt), getElem?_singleton,
      if_neg (by omega)] at hk
    cases hk

theorem Covered.begin (h : Covered w ids) (work : Work) :
    Covered (w.begin_ work) (ids ++ [w.ops.length]) := by
  intro id hid
  rcases pending_begin hid with hid | rfl
  · exact mem_append_left _ (h id hid)
  · exact mem_append_right _ mem_cons_self

theorem Covered.mono {ids' : List ℕ} (h : Covered w ids) (hsub : ids ⊆ ids') : Covered w ids' :=
  fun id hid => hsub (h id hid)

variable {r : Outcome}

/-- An operation that has ended need not be looked after. -/
theorem Covered.drop {ids' : List ℕ} (h : Covered w ids) (hended : w.ops[id]? = some ⟨work, some r⟩)
    (hsub : ∀ i ∈ ids, i = id ∨ i ∈ ids') : Covered w ids' := by
  intro i hi
  rcases hsub i (h i hi) with rfl | hmem
  · obtain ⟨k, hk⟩ := hi
    rw [hended] at hk
    cases hk
  · exact hmem

/-! Two queues have the operations, one after the other. -/

theorem mem_of_pop_left {α : Type} {q rest : List α} {f : α → ℕ} {a : α} {ids : List ℕ}
    (hq : q = a :: rest) : ∀ i ∈ q.map f ++ ids, i = f a ∨ i ∈ q.tail.map f ++ ids := by
  subst hq
  exact fun i hi => mem_cons.mp hi

theorem mem_of_pop_right {q rest ids : List ℕ} (hq : q = id :: rest) :
    ∀ i ∈ ids ++ q, i = id ∨ i ∈ ids ++ q.tail := by
  subst hq
  exact fun i hi => mem_cons.mp (perm_middle.mem_iff.mp hi)

theorem push_left_subset (q ids : List ℕ) (id : ℕ) : q ++ ids ++ [id] ⊆ q ++ [id] ++ ids := by
  rw [append_assoc, append_assoc]
  exact (perm_append_comm.append_left q).subset

variable {w' : Io π μ γ} {e : Env μ} {id : ℕ} {work : Work}

/-- The end of an operation changes that operation only. -/
theorem Ends.ops_eq (h : Ends e w id work r w') :
    w'.ops = w.ops.set id ⟨work, some r⟩ := by
  cases h <;> rfl

theorem drift_ops (h : drift e w w') :
    ∃ id work r, w.ops[id]? = some ⟨work, none⟩ ∧ w'.ops = w.ops.set id ⟨work, some r⟩ := by
  obtain ⟨id, work, r, hid, hends⟩ := h
  exact ⟨id, work, r, hid, hends.ops_eq⟩

/-- What the operations started are, whether or not they have ended. -/
def Io.works (w : Io π μ γ) : List Work := w.ops.map Operation.work

theorem works_begin (w : Io π μ γ) (work : Work) : (w.begin_ work).works = w.works ++ [work] := by
  rw [Io.works, Io.begin_, map_append]
  rfl

theorem works_of_drift (h : drift e w w') : w'.works = w.works := by
  obtain ⟨id, work, r, hid, hops⟩ := drift_ops h
  have hlt : id < (w.ops.map Operation.work).length := by
    rw [length_map]
    exact (List.getElem?_eq_some_iff.mp hid).1
  have hwork : (w.ops.map Operation.work)[id] = work := by
    rw [getElem_map, (List.getElem?_eq_some_iff.mp hid).2]
  rw [Io.works, hops, map_set, ← hwork, set_getElem_self]
  rfl

theorem length_works (w : Io π μ γ) : w.works.length = w.ops.length := length_map _

theorem works_begin_of_some {x : Work} (h : w.works[id]? = some x) :
    (w.begin_ work).works[id]? = some x := by
  rw [works_begin, getElem?_append_left (List.getElem?_eq_some_iff.mp h).1]
  exact h

/-- What was started last. -/
theorem works_begin_last (w : Io π μ γ) (work : Work) :
    (w.begin_ work).works[w.ops.length]? = some work := by
  rw [works_begin, ← length_works]
  exact getElem?_concat_length

theorem works_getElem? {o : Option Outcome} (h : w.ops[id]? = some ⟨work, o⟩) :
    w.works[id]? = some work := by
  rw [Io.works, getElem?_map, h]
  rfl

/-- The other end has kept to what is assumed of it. -/
def Operation.Honest (e : Env μ) : Operation → Prop
  | ⟨.read offset length, some (.done bytes)⟩ => e.reads offset length bytes
  | ⟨.recv key length, some (.done bytes)⟩ => e.brings key length bytes
  | _ => True

def Io.Honest (e : Env μ) (w : Io π μ γ) : Prop := ∀ op ∈ w.ops, op.Honest e

theorem Ends.honest (h : Ends e w id work r w') :
    Operation.Honest e ⟨work, some r⟩ := by
  cases h with
  | read h => exact h
  | recv h => exact h
  | _ => trivial

theorem Io.Honest.drift (h : w.Honest e) (hd : drift e w w') : w'.Honest e := by
  obtain ⟨id, work, r, -, hends⟩ := hd
  intro op hop
  rw [hends.ops_eq] at hop
  rcases mem_or_eq_of_mem_set hop with hmem | rfl
  · exact h op hmem
  · exact hends.honest

theorem Io.Honest.begin (h : w.Honest e) (work : Work) : (w.begin_ work).Honest e :=
  forall_mem_append.mpr ⟨h, forall_mem_singleton.mpr (by cases work <;> trivial)⟩

/-- Nothing has changed but the operations and the temporary file. -/
structure Calm (w₀ w : Io π μ γ) : Prop where
  files : w.files = w₀.files
  told : w.told = w₀.told
  changes : w.changes = w₀.changes

theorem Calm.refl (w : Io π μ γ) : Calm w w := ⟨rfl, rfl, rfl⟩

theorem Calm.drift {w₀ : Io π μ γ} (h : Calm w₀ w) (hd : drift e w w') : Calm w₀ w' := by
  obtain ⟨id, work, r, -, hends⟩ := hd
  cases hends <;> exact { h with }

theorem Calm.drifts (h : Relation.ReflTransGen (Transfer.drift e) w w') : Calm w w' := by
  induction h with
  | refl => exact .refl w
  | tail _ hlast ih => exact ih.drift hlast

theorem Calm.begin {w₀ : Io π μ γ} (h : Calm w₀ w) (work : Work) : Calm w₀ (w.begin_ work) :=
  { h with }

theorem pending_of_drift (h : drift e w w') (hid : w'.Pending id) :
    w.Pending id := by
  obtain ⟨i, work, r, -, hops⟩ := drift_ops h
  obtain ⟨k, hk⟩ := hid
  rw [hops, getElem?_set] at hk
  split_ifs at hk
  · cases hk
  · exact ⟨k, hk⟩

theorem Covered.drift {ids : List ℕ} (h : Covered w ids) (hd : drift e w w') :
    Covered w' ids :=
  fun id hid => h id (pending_of_drift hd hid)

/-- What an operation does, and how it ended, stays. -/
theorem ended_of_drift (h : Transfer.drift e w w')
    (hid : w.ops[id]? = some ⟨work, some r⟩) : w'.ops[id]? = some ⟨work, some r⟩ := by
  obtain ⟨i, k, q, hi, hops⟩ := drift_ops h
  rw [hops, getElem?_set]
  by_cases heq : i = id
  · subst heq
    rw [hid] at hi
    cases hi
  · rwa [if_neg heq]

/-- What a stream of pages asks for: operations on its buffers. -/
def Silent : Call π μ γ → Prop
  | .acquire _ | .start _ | .submit _ | .await _ | .slack _ => True
  | _ => False

/-- What holds of a stream's world whatever becomes of its operations. -/
structure Held (e : Env μ) (w₀ : Io π μ γ) (ids : List ℕ) (w : Io π μ γ) : Prop where
  covered : Covered w ids
  honest : w.Honest e
  calm : Calm w₀ w

namespace Held

variable {e : Env μ} {w₀ w' : Io π μ γ} {ids ids' : List ℕ}

/-- Before anything is started. -/
theorem start (h : w.ops = []) : Held e w [] w := by
  refine ⟨covered_of_ops_nil h, ?_, .refl w⟩
  rw [Io.Honest, h]
  exact nofun

section

variable (h : Held e w₀ ids w)
include h

theorem drift (hd : Transfer.drift e w w') : Held e w₀ ids w' :=
  ⟨h.covered.drift hd, h.honest.drift hd, h.calm.drift hd⟩

theorem begin (work : Work) (hsub : ids ++ [w.ops.length] ⊆ ids') :
    Held e w₀ ids' (w.begin_ work) :=
  ⟨(h.covered.begin work).mono hsub, h.honest.begin work, h.calm.begin work⟩

theorem left (left : List Work) : Held e w₀ ids { w with left } :=
  ⟨h.covered, h.honest, { h.calm with }⟩

theorem mono (hsub : ids ⊆ ids') : Held e w₀ ids' w := ⟨h.covered.mono hsub, h.honest, h.calm⟩

theorem drop {r : Outcome} (hended : w.ops[id]? = some ⟨work, some r⟩)
    (hsub : ∀ i ∈ ids, i = id ∨ i ∈ ids') : Held e w₀ ids' w :=
  ⟨h.covered.drop hended hsub, h.honest, h.calm⟩

end

end Held

end Pending

/-! ## Putting operations together -/

/-- Why a transfer gives up. -/
inductive Fault where
  | memory
  | submit
  | read
  | shortRead
  | write
  | send
  | receive
  | control
  | refused
  | aborted
  | unexpected
  | oversized
  | noBasis
  | outOfRange
  | create
  | commit
  | mismatch
  /-- What the other side said. -/
  | remote
  deriving DecidableEq

/-- A coroutine over an object of type `σ`. -/
abbrev Pipe (π μ γ σ α : Type) := Co (Call π μ γ) Answer σ Fault α

namespace Pipe

variable {π μ γ σ : Type}

def acquired (held : ℕ) : Pipe π μ γ σ Bool := @Co.ask _ Answer σ Fault (Call.acquire held)
def slack (length : ℕ) : Pipe π μ γ σ Bytes := @Co.ask _ Answer σ Fault (Call.slack length)
def tell (m : μ) : Pipe π μ γ σ Bool := @Co.ask _ Answer σ Fault (Call.tell m)
def hear : Pipe π μ γ σ (Option μ) := @Co.ask _ Answer σ Fault Call.hear
def open_ : Pipe π μ γ σ Bool := @Co.ask _ Answer σ Fault Call.open_
def consult (offset length : ℕ) : Pipe π μ γ σ (Option Bytes) :=
  @Co.ask _ Answer σ Fault (Call.consult offset length)
def create : Pipe π μ γ σ Bool := @Co.ask _ Answer σ Fault Call.create
def put (offset : ℕ) (bytes : Bytes) : Pipe π μ γ σ Bool :=
  @Co.ask _ Answer σ Fault (Call.put offset bytes)
def truncate (size : ℕ) : Pipe π μ γ σ Bool := @Co.ask _ Answer σ Fault (Call.truncate size)
def attributes : Pipe π μ γ σ Bool := @Co.ask _ Answer σ Fault Call.attributes
def rename (path : π) (note : γ) : Pipe π μ γ σ Bool :=
  @Co.ask _ Answer σ Fault (Call.rename path note)
def link (path : π) : Pipe π μ γ σ Bool := @Co.ask _ Answer σ Fault (Call.link path)
def remove : Pipe π μ γ σ Unit := @Co.ask _ Answer σ Fault Call.remove
def close : Pipe π μ γ σ Unit := @Co.ask _ Answer σ Fault Call.close
variable (work : Work)

def started : Pipe π μ γ σ ℕ := @Co.ask _ Answer σ Fault (Call.start work)
def submitted : Pipe π μ γ σ (Option ℕ) := @Co.ask _ Answer σ Fault (Call.submit work)
def awaited (id : ℕ) : Pipe π μ γ σ Outcome := @Co.ask _ Answer σ Fault (Call.await id)

/-- `PagePool::acquire`. -/
def acquire (held : σ → ℕ) : Pipe π μ γ σ Bool := do
  let s ← Co.read
  acquired (held s)

/-- Start an operation that cannot be refused, and keep its number. -/
def launch (push : ℕ → σ → σ) : Pipe π μ γ σ Unit := do
  let id ← started work
  Co.modify (push id)

/-- Submit an operation; its number is kept unless it is refused. -/
def submit (push : ℕ → σ → σ) : Pipe π μ γ σ Bool := do
  match ← submitted work with
  | none => return false
  | some id =>
    Co.modify (push id)
    return true

/-- Wait for the end of an operation, and let go of it. -/
def retire (id : ℕ) (pop : σ → σ) : Pipe π μ γ σ Outcome := do
  let r ← awaited id
  Co.modify pop
  return r

/-- Leave with an error unless it worked. -/
def orFail (m : Pipe π μ γ σ Bool) (f : Fault) : Pipe π μ γ σ Unit := do
  if ← m then return () else Co.fail f

section Queues

section

variable {ι : Type} (queue : σ → List ι) (num : ι → ℕ) (pop : σ → σ) (f : Fault)
  (use : ι → Bytes → Pipe π μ γ σ Unit)

/-- One pass of `while (Queue.size() > Keep)`: wait for the front, take it off and use what it
brought; a failure ends the loop. -/
def drainPass : Pipe π μ γ σ Unit := do
  match queue (← Co.read) with
  | [] => return ()
  | a :: _ =>
    match ← retire (num a) pop with
    | .failed => Co.fail f
    | .done bytes => use a bytes

/-- `store` and `storeReceived`. -/
def drainWith (keep : ℕ) : Pipe π μ γ σ Unit := do
  Co.loop (fun s => keep < (queue s).length) (drainPass queue num pop f use)
    ((queue (← Co.read)).length + 1)

end

variable (queue : σ → List ℕ) (pop : σ → σ)

/-- `awaitSends`, `awaitWrites`, `drain`. -/
def drainTo (f : Fault) (keep : ℕ) : Pipe π μ γ σ Unit :=
  drainWith queue (fun id => id) pop f (fun _ _ => Co.pure ()) keep

/-- One pass of a loop of `quiesce`. -/
def quiescePass : Pipe π μ γ σ Unit := do
  match queue (← Co.read) with
  | [] => return ()
  | id :: _ =>
    let _ ← retire id pop
    return ()

/-- `while (!Queue.empty())`: wait for the front, take it off, whatever came of it. -/
def quiesceQueue : Pipe π μ γ σ Unit := do
  Co.loop (fun s => !(queue s).isEmpty) (quiescePass queue pop) ((queue (← Co.read)).length + 1)

end Queues

end Pipe

section Rules

variable {π μ γ σ : Type} [DecidableEq π] {e : Env μ} {ok : Io π μ γ → Call π μ γ → Prop}
  {P : σ → Io π μ γ → Prop} {E : Fault → σ → Io π μ γ → Prop}

variable {f : Fault} {Q : Unit → σ → Io π μ γ → Prop}

/-- What there is after it worked, and what there is if it did not. -/
theorem Pipe.orFail_spec {m : Pipe π μ γ σ Bool}
    (hm : Triple (io e) ok P m (fun done s w => bif done then Q () s w else E f s w) E) :
    Triple (io e) ok P (Pipe.orFail m f) Q E := by
  refine .bind hm fun done => ?_
  cases done with
  | true => exact .pure fun _ _ h => h
  | false => exact .fail fun _ _ h => h

omit [DecidableEq π] in
theorem Pipe.orFail_keeps {V : World (Call π μ γ) Answer (Io π μ γ)} {E : σ → Io π μ γ → Prop}
    {m : Pipe π μ γ σ Bool} (hE : ∀ s w, P s w → E s w) (hm : Keeps V ok P E m) :
    Keeps V ok P E (Pipe.orFail m f) :=
  hm.bind fun _ => .ite .pure (.fail hE)

/-- With nothing outstanding the world does not move by itself. -/
theorem stable_of_covered (h : ∀ s w, P s w → Covered w []) : Stable (io e) P := by
  rintro s w w' hs ⟨id, work, r, hid, -⟩
  exact absurd (h s w hs id ⟨work, hid⟩) not_mem_nil

variable {push : ℕ → σ → σ} (hP : Stable (io e) P)
include hP

theorem Pipe.launch_spec (hok : ∀ s w, P s w → ok w (.start work))
    (h : ∀ s w, P s w → Q () (push w.ops.length s) (w.begin_ work)) :
    Triple (io e) ok P (Pipe.launch work push) Q E := by
  refine .bind (M := fun (id : ℕ) s w => Q () (push id s) w) (.ask hP hok ?_) fun id =>
    .modify fun _ _ h => h
  rintro s w a w' hs ⟨rfl, rfl⟩
  exact h s w hs

theorem Pipe.submit_spec {Q : Bool → σ → Io π μ γ → Prop} (hok : ∀ s w, P s w → ok w (.submit work))
    (hrefused : ∀ s w left, P s w → Q false s { w with left })
    (h : ∀ s w, P s w → Q true (push w.ops.length s) (w.begin_ work)) :
    Triple (io e) ok P (Pipe.submit work push) Q E := by
  let M : Option ℕ → σ → Io π μ γ → Prop
    | none, s, w => Q false s w
    | some id, s, w => Q true (push id s) w
  refine .bind (M := M) (.ask hP hok ?_) fun id => ?_
  · rintro s w a w' hs (⟨rfl, rfl | rfl⟩ | ⟨rfl, rfl⟩)
    · exact hrefused s w' _ hs
    · exact hrefused s w _ hs
    · exact h s w hs
  · cases id with
    | none => exact .pure fun _ _ h => h
    | some id =>
      exact .bind (M := fun _ => Q true) (.modify fun _ _ h => h) fun _ => .pure fun _ _ h => h

theorem Pipe.retire_spec {pop : σ → σ} {Q : Outcome → σ → Io π μ γ → Prop}
    (hok : ∀ s w, P s w → ok w (.await id))
    (h : ∀ s w r work, P s w → w.ops[id]? = some ⟨work, some r⟩ → Q r (pop s) w) :
    Triple (io e) ok P (Pipe.retire id pop) Q E := by
  refine .bind (M := fun (r : Outcome) s w => Q r (pop s) w) (.ask hP hok ?_) fun r =>
    .bind (M := fun _ => Q r) (.modify fun _ _ h => h) fun _ => .pure fun _ _ h => h
  rintro s w a w' hs ⟨⟨work, hwork⟩, rfl⟩
  exact h s w' a work hs hwork

/-- A page, or no memory. -/
theorem Pipe.acquire_spec {held : σ → ℕ} (hok : ∀ s w, P s w → ok w (.acquire (held s)))
    (hE : ∀ s w, P s w → E f s w) :
    Triple (io e) ok P (Pipe.orFail (Pipe.acquire held) f) (fun _ => P) E := by
  refine Pipe.orFail_spec ?_
  rw [Pipe.acquire]
  refine .readThen fun s₀ => .ask (fun s w w' h hd => ⟨h.1, hP s w w' h.2 hd⟩) ?_ ?_
  · rintro s w ⟨rfl, hs⟩
    exact hok s w hs
  · rintro s w (_ | _) w' ⟨rfl, hs⟩ rfl
    · exact hE s w' hs
    · exact hs

/-- A call that changes nothing. -/
theorem Pipe.open_spec (hok : ∀ s w, P s w → ok w .open_) (hE : ∀ s w, P s w → E f s w) :
    Triple (io e) ok P (Pipe.orFail Pipe.open_ f) (fun _ => P) E := by
  refine Pipe.orFail_spec (.ask hP hok ?_)
  rintro s w (_ | _) w' hs rfl
  · exact hE _ _ hs
  · exact hs

theorem Pipe.tell_spec {m : μ} (hok : ∀ s w, P s w → ok w (.tell m))
    (h : ∀ s w, P s w → Q () s { w with told := w.told ++ [m] }) (hE : ∀ s w, P s w → E f s w) :
    Triple (io e) ok P (Pipe.orFail (Pipe.tell m) f) Q E := by
  refine Pipe.orFail_spec (.ask hP hok ?_)
  rintro s w (_ | _) w' hs rfl
  · exact hE _ _ hs
  · exact h s w hs

/-- What is heard is what may be. -/
theorem Pipe.hear_spec (hok : ∀ s w, P s w → ok w .hear) :
    Triple (io e) ok P Pipe.hear (fun m s w => (∀ v, m = some v → e.hears v) ∧ P s w) E := by
  refine .ask hP hok ?_
  rintro s w m w' hs ⟨hm, rfl⟩
  exact ⟨hm, hs⟩

variable {pop : σ → σ}

/-- What the end of the front and its use keep, draining keeps. -/
theorem Pipe.drainWith_spec {ι : Type} {queue : σ → List ι} {num : ι → ℕ} {keep : ℕ}
    {use : ι → Bytes → Pipe π μ γ σ Unit} {M : ι → Bytes → σ → Io π μ γ → Prop}
    (hok : ∀ id s w, P s w → ok w (.await id))
    (hdone : ∀ s w a rest work bytes, P s w → queue s = a :: rest →
      w.ops[num a]? = some ⟨work, some (.done bytes)⟩ → M a bytes (pop s) w)
    (hfailed : ∀ s w a rest work, P s w → queue s = a :: rest →
      w.ops[num a]? = some ⟨work, some .failed⟩ → E f (pop s) w)
    (huse : ∀ a bytes, Triple (io e) ok (M a bytes) (use a bytes) (fun _ => P) E) :
    Triple (io e) ok P (Pipe.drainWith queue num pop f use keep)
    (fun _ s w => P s w ∧ (queue s).length ≤ keep) E := by
  have hpass : Triple (io e) ok P (Pipe.drainPass queue num pop f use) (fun _ => P) E := by
    rw [Pipe.drainPass]
    refine .readThen fun s₀ => ?_
    cases hq : queue s₀ with
    | nil => exact .pure fun s w h => h.2
    | cons a rest =>
      let M' : Outcome → σ → Io π μ γ → Prop
        | .done bytes, s, w => M a bytes s w
        | .failed, s, w => E f s w
      refine Triple.bind (M := M') (Pipe.retire_spec ?_ (fun s w h => hok _ s w h.2) ?_) fun r => ?_
      · exact fun s w w' h hd => ⟨h.1, hP s w w' h.2 hd⟩
      · rintro s w r work ⟨rfl, hs⟩ hended
        cases r with
        | done bytes => exact hdone s w a rest work bytes hs hq hended
        | failed => exact hfailed s w a rest work hs hq hended
      · cases r with
        | done bytes => exact huse a bytes
        | failed => exact .fail fun _ _ h => h
  rw [Pipe.drainWith]
  refine Triple.readThen fun s₀ => (Triple.loop (hpass.pre fun _ _ h => h.1) _).conseq
    (fun _ _ h => h.2) ?_ fun _ _ _ h => h
  exact fun _ s w h => ⟨h.1, by simpa using h.2⟩

variable {queue : σ → List ℕ}

theorem Pipe.drainTo_spec {keep : ℕ} (hok : ∀ id s w, P s w → ok w (.await id))
    (hdone : ∀ s w id rest work bytes, P s w → queue s = id :: rest →
      w.ops[id]? = some ⟨work, some (.done bytes)⟩ → P (pop s) w)
    (hfailed : ∀ s w id rest work, P s w → queue s = id :: rest →
      w.ops[id]? = some ⟨work, some .failed⟩ → E f (pop s) w) :
    Triple (io e) ok P (Pipe.drainTo queue pop f keep)
    (fun _ s w => P s w ∧ (queue s).length ≤ keep) E :=
  Pipe.drainWith_spec hP hok hdone hfailed fun _ _ => .pure fun _ _ h => h

/-- A queue is drained whatever comes of its operations. -/
theorem Pipe.quiesceQueue_spec (hok : ∀ id s w, P s w → ok w (.await id))
    (hpop : ∀ s w id rest work r, P s w → queue s = id :: rest → w.ops[id]? = some ⟨work, some r⟩ →
      P (pop s) w) :
    Triple (io e) ok P (Pipe.quiesceQueue queue pop) (fun _ s w => P s w ∧ queue s = [])
    fun _ _ _ => False := by
  have hpass : Triple (io e) ok P (Pipe.quiescePass queue pop) (fun _ => P) fun _ _ _ => False := by
    rw [Pipe.quiescePass]
    refine .readThen fun s₀ => ?_
    cases hq : queue s₀ with
    | nil => exact .pure fun s w h => h.2
    | cons id rest =>
      refine Triple.bind (M := fun _ => P) (Pipe.retire_spec ?_ (fun s w h => hok id s w h.2) ?_)
        fun _ =>
        .pure fun _ _ h => h
      · exact fun s w w' h hd => ⟨h.1, hP s w w' h.2 hd⟩
      · rintro s w r work ⟨rfl, hs⟩ hended
        exact hpop s w id rest work r hs hq hended
  rw [Pipe.quiesceQueue]
  refine Triple.readThen fun s₀ => (Triple.loop (hpass.pre fun _ _ h => h.1) _).conseq (fun _ _ h =>
    h.2) ?_ fun _ _ _ h => h
  exact fun _ s w h => ⟨h.1, by simpa using h.2⟩

end Rules

/-! ## Keeping hold of what was started -/

section Keeps

variable {π μ γ σ α β : Type} [DecidableEq π] (e : Env μ) (ids : σ → List ℕ)

/-- The object names whatever has not ended. -/
def Own (s : σ) (w : Io π μ γ) : Prop := Covered w (ids s)

variable {e ids} {P : σ → Prop}

theorem own_stable : Stable (io (π := π) (γ := γ) e) (Own ids) :=
  fun _ _ _ h hdrift => .drift h hdrift

variable {c : Call π μ γ} {a : Answer c}

/-- What each call may change. -/
theorem frame_of_perform {w w' : Io π μ γ} (h : perform e w c a w') :
    (w'.ops = w.ops ∨ ∃ work, c = .start work ∨ c = .submit work) ∧
    (w'.told = w.told ∨ ∃ m, c = .tell m) ∧
    (w'.files = w.files ∧ w'.changes = w.changes ∨ ∃ path, (∃ note, c = .rename path note) ∨
      c = .link path) := by
  cases c with
  | start work => exact ⟨.inr ⟨work, .inl rfl⟩, by simp [h.2, Io.begin_]⟩
  | submit work =>
    exact ⟨.inr ⟨work, .inr rfl⟩, by rcases h with ⟨-, rfl | rfl⟩ | ⟨-, rfl⟩ <;> simp [Io.begin_]⟩
  | acquire held | open_ | attributes | remove | close => simp [show w' = _ from h]
  | await id | slack length | hear | consult offset length => simp [h.2]
  | tell m | create | truncate size =>
    rw [show w' = _ from h]
    split_ifs <;> simp
  | put offset bytes =>
    obtain ⟨-, rfl⟩ | ⟨-, torn, -, rfl⟩ := h
    all_goals simp [Io.land]
  | rename path note =>
    obtain ⟨-, rfl⟩ | ⟨-, t, -, rfl⟩ := h
    · simp
    · simp [Io.renamed]
  | link path =>
    obtain ⟨-, rfl⟩ | rfl := h
    · simp
    · simp [Io.unlinked]

/-- Only a start changes the operations. -/
theorem ops_of_perform {w w' : Io π μ γ} (h : perform e w c a w')
    (hstart : ∀ work, c ≠ .start work) (hsubmit : ∀ work, c ≠ .submit work) : w'.ops = w.ops :=
  (frame_of_perform h).1.resolve_right fun ⟨work, hc⟩ => hc.elim (hstart work) (hsubmit work)

/-- Only a message changes what was told. -/
theorem told_of_perform {w w' : Io π μ γ} (h : perform e w c a w')
    (htell : ∀ m, c ≠ .tell m) : w'.told = w.told :=
  (frame_of_perform h).2.1.resolve_right fun ⟨m, hc⟩ => htell m hc

/-- Only a rename and a link change what is found at the paths. -/
theorem files_of_perform {w w' : Io π μ γ} (h : perform e w c a w')
    (hrename : ∀ path note, c ≠ .rename path note) (hlink : ∀ path, c ≠ .link path) :
    w'.files = w.files ∧ w'.changes = w.changes :=
  (frame_of_perform h).2.2.resolve_right fun ⟨path, hc⟩ =>
    hc.elim (fun ⟨note, hc⟩ => hrename path note hc) (hlink path)

end Keeps

end Rail.Transfer
