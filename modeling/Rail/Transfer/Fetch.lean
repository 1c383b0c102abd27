import Rail.Transfer.PageReceiver
import Rail.Transfer.Schedule

/-!
# Fetching a file

`FileClient::fetch` of `src/file-client.cc` against `Service::onFetch` of `src/file-service.cc`.
The daemon replies with the length, streams the pages and closes with a digest of what it read; the
client lands the pages in a temporary file, compares the digests and renames.

The two are joined by what passes between them.  The daemon is taken at any point of any run: the
client hears only what was told by then, and a receive brings a page of the length asked for, which
the daemon sent under that key unless a digest is there to find out.

* `Told`: what the daemon has told at any point of any run (`onFetch_told`).
* `fetch_spec`: what the client leaves, if it hears what a daemon may tell.

A file of no bytes is the exception: the client returns before it has touched the local path.
-/

namespace Rail.Transfer

open List ByteFile Coroutine
open Client (Geometry)

/-- `Verifier`: the digest of a session. -/
structure Verifier (δ : Type) where
  on : Bool
  sum : Bytes → δ
  /-- `Digest{}`. -/
  blank : δ

variable {δ : Type}

def Verifier.digest (v : Verifier δ) (whole : Bytes) : δ := if v.on then v.sum whole else v.blank

/-- `Verifier::matches`. -/
def Verifier.accepts [DecidableEq δ] (v : Verifier δ) (whole : Bytes) (theirs : δ) : Bool :=
  !v.on || decide (v.sum whole = theirs)

/-- What passes over the control channel. -/
inductive Message (δ : Type) where
  | fetch (tagBase offset length : ℕ)
  /-- `StreamReply`. -/
  | reply (ok : Bool) (length : ℕ)
  /-- `StreamDigest`. -/
  | digest (ok : Bool) (whole : δ)
  deriving DecidableEq

/-- The page pool of a channel, and what its geometry is made from. -/
structure Pool where
  pageSize : ℕ
  pages : ℕ
  inFlight : ℕ
  depth : ℕ
  deriving DecidableEq

def Pool.streaming (p : Pool) (tagBase : ℕ) : Streaming :=
  ⟨p.pageSize, Geometry.forChannel p.pages p.inFlight p.depth, tagBase⟩

/-- What the two ends of a fetch go by. -/
structure Fetching (δ : Type) where
  verifier : Verifier δ
  /-- The client's pool. -/
  near : Pool
  /-- The daemon's pool. -/
  far : Pool
  tagBase : ℕ
  /-- The client's file system grants direct writes. -/
  granted : Bool
  /-- The daemon's file system grants direct reads. -/
  direct : Bool
  /-- `FlipOneBit`, the daemon's fault injector. -/
  flip : Bool

section Code

variable {π γ : Type} (f : Fetching δ) (fuel : ℕ)

/-! ## The daemon -/

/-- `heldFor`, and `FileReader::open`. -/
def opened : Pipe π (Message δ) γ PageSender Bool := do
  if ← Pipe.open_ then Pipe.open_ else return false

/-- `FileSource`. -/
def Fetching.source : Source := { direct := f.direct }

/-- `Service::onFetch`, for a file of `size` bytes. -/
def onFetch (size tagBase offset length : ℕ) : Pipe π (Message δ) γ PageSender Unit := do
  if ← opened then
    if size < offset then Pipe.orFail (Pipe.tell (.reply true 0)) .control
    else
      let left := min length (size - offset)
      Pipe.orFail (Pipe.tell (.reply true left)) .control
      if left = 0 then return ()
      else
        match ← Co.outcome
            (PageSender.stream (f.far.streaming tagBase) f.source fuel offset left) with
        | .ok _ =>
          let s ← Co.read
          Pipe.orFail (Pipe.tell (.digest true (f.verifier.digest s.whole))) .control
        | .error e =>
          Pipe.orFail (Pipe.tell (.digest false f.verifier.blank)) .control
          if (← Co.read).leftUnsent then
            Pipe.close
            Co.fail e
          else return ()
  else Pipe.orFail (Pipe.tell (.reply false 0)) .control

/-! ## The client -/

/-- `FileSink`, over a file opened for direct writes if pages are aligned and the file system grants
it. -/
def Fetching.sink : Sink := { direct := f.near.pageSize % directAlignment = 0 && f.granted }

/-- `F.Length = ~uint64_t{0}`. -/
def everything : ℕ := 2 ^ 64 - 1

/-- The part of `fetch` that has a `FileWriter`. -/
def fetchInto [DecidableEq δ] (path : π) (length : ℕ) : Pipe π (Message δ) Unit PageReceiver ℕ := do
  let _ ← PageReceiver.land (f.near.streaming f.tagBase) f.sink fuel 0 length
  match ← Pipe.hear with
  | some (.digest ok theirs) =>
    if !ok then Co.fail .remote
    else if f.verifier.accepts (← Co.read).whole theirs then
      commit path () length
      return length
    else Co.fail .mismatch
  | _ => Co.fail .control

/-- `FileClient::fetch`. -/
def fetch [DecidableEq δ] (path : π) : Pipe π (Message δ) Unit PageReceiver ℕ := do
  Pipe.orFail (Pipe.tell (.fetch f.tagBase 0 everything)) .control
  match ← Pipe.hear with
  | some (.reply ok length) =>
    if !ok then Co.fail .remote
    else if length = 0 then return 0
    else
      Pipe.orFail Pipe.create .create
      match ← Co.outcome (fetchInto f fuel path length) with
      | .ok n => return n
      | .error e =>
        -- `FileWriter::abandon`
        Pipe.remove
        Co.fail e
  | _ => Co.fail .control

end Code

/-! ## What the daemon tells -/

variable {fuel : ℕ}

section Daemon

variable {π γ : Type} (f : Fetching δ) (remote : Bytes)

/-- The daemon reads a file that does not change. -/
def Fetching.daemon {μ : Type} : Env μ :=
  { reads := fun offset length bytes => bytes = slice remote offset length }

/-- What the daemon has told: the length of the file, and a digest of it once every page was sent as
it is. -/
structure Told (w : Io π (Message δ) γ) : Prop where
  reply : ∀ n, .reply true n ∈ w.told → n = remote.length
  digest : ∀ d, .digest true d ∈ w.told →
    d = f.verifier.digest remote ∧ (f.flip = false → Sends (f.far.streaming f.tagBase) remote w)

/-- What the daemon may do next, for that to stay so. -/
def May (w : Io π (Message δ) γ) : Call π (Message δ) γ → Prop
  | .tell (.reply true n) => n = remote.length
  | .tell (.digest true d) =>
    d = f.verifier.digest remote ∧ (f.flip = false → Sends (f.far.streaming f.tagBase) remote w)
  | .start _ => ∀ d, .digest true d ∉ w.told
  | .submit _ => ∀ d, .digest true d ∉ w.told
  | _ => True

variable {f remote} {w w' : Io π (Message δ) γ}

section

variable (h : Told f remote w)
include h

theorem Told.congr (htold : w'.told = w.told) (hworks : w'.works = w.works) : Told f remote w' where
  reply := by
    rw [htold]
    exact h.reply
  digest := by
    rw [htold]
    intro d hd
    obtain ⟨hsum, hsends⟩ := h.digest d hd
    exact ⟨hsum, fun hflip => PageSender.sends_of_works (hsends hflip) hworks⟩

theorem Told.undigested (htold : w'.told = w.told) (hnone : ∀ d, .digest true d ∉ w.told) :
    Told f remote w' where
  reply := by
    rw [htold]
    exact h.reply
  digest := by
    rw [htold]
    exact fun d hd => absurd hd (hnone d)

theorem Told.drift {e : Env (Message δ)} (hd : Transfer.drift e w w') : Told f remote w' :=
  h.congr (Calm.drift (Calm.refl w) hd).told (works_of_drift hd)

theorem Told.tell {m : Message δ} (hmay : May f remote w (.tell m)) :
    Told f remote { w with told := w.told ++ [m] } where
  reply := by
    intro n hn
    rcases mem_append.mp hn with hn | hn
    · exact h.reply n hn
    · obtain rfl := mem_singleton.mp hn
      exact hmay
  digest := by
    intro d hd
    rcases mem_append.mp hd with hd | hd
    · exact h.digest d hd
    · obtain rfl := mem_singleton.mp hd
      exact hmay

theorem Told.perform [DecidableEq π] {e : Env (Message δ)} {o : Call π (Message δ) γ} {a : Answer o}
    (hmay : May f remote w o) (hperform : Transfer.perform e w o a w') : Told f remote w' := by
  cases o with
  | tell m =>
    rw [show w' = _ from hperform]
    split_ifs
    · exact h.tell hmay
    · exact h
  | start work | submit work =>
    exact h.undigested (told_of_perform hperform fun _ hm => by cases hm) hmay
  | acquire | await | slack | hear | open_ | consult | create | put | truncate | attributes | rename
      | link | remove
  | close =>
    refine h.congr (told_of_perform hperform fun _ hm => by cases hm) ?_
    rw [Io.works, ops_of_perform hperform (fun _ hm => by cases hm) fun _ hm => by cases hm]
    rfl

end

/-- Before the stream: nothing has been started. -/
structure Ready (f : Fetching δ) (remote : Bytes) (told : List (Message δ)) (s : PageSender)
    (w : Io π (Message δ) γ) : Prop where
  fresh : s = { flipOneBit := f.flip }
  covered : Covered w []
  honest : w.Honest (Fetching.daemon remote)
  sends : f.flip = false → Sends (f.far.streaming f.tagBase) remote w
  told : w.told = told

theorem Pool.readAhead_pos (p : Pool) (tagBase : ℕ) : 1 ≤
    (p.streaming tagBase).geometry.readAhead := le_max_left _ _

variable [DecidableEq π] {told : List (Message δ)}

theorem ready_stable :
    Stable (io (π := π) (γ := γ) (Fetching.daemon remote)) (Ready f remote told) :=
  stable_of_covered fun _ _ h => h.covered

theorem opened_spec :
    Triple (io (Fetching.daemon remote)) (May f remote) (Ready f remote told)
    (opened (π := π) (γ := γ)) (fun _ => Ready f remote told) fun _ _ _ => True := by
  have hopen : Triple (io (Fetching.daemon remote)) (May f remote) (Ready f remote told)
      (Pipe.open_ (π := π) (γ := γ)) (fun _ => Ready f remote told) fun _ _ _ => True := by
    refine .ask ready_stable free ?_
    rintro s w a w' hs rfl
    exact hs
  exact .bind hopen fun _ => .ite (fun _ => hopen) fun _ => .pure fun _ _ h => h

section

variable (hsize : remote.length < 2 ^ 64)
include hsize

/-- The stream, and the digest that closes it. -/
theorem onFetch_stream_spec {left : ℕ} (hleft : left = remote.length)
    (htold : ∀ d, .digest true d ∉ told) :
    Triple (io (Fetching.daemon remote)) (May f remote) (Ready f remote told)
      (Co.outcome (PageSender.stream (π := π) (γ := γ) (f.far.streaming f.tagBase) f.source fuel
      0 left)) (fun r s w => Covered w [] ∧ (∀ n, r = .ok n → s.whole = remote ∧
        (f.flip = false → Sends (f.far.streaming f.tagBase) remote w))) fun _ _ _ => True := by
  refine .now fun w₀ => .given (c := w₀.told = told) (fun _ _ h => h.1 ▸ h.2.told) fun h₀ =>
    .outcome ?_
  have hend : pastEnd 0 left = remote.length := by
    rw [pastEnd_of_lt (by omega)]
    omega
  have hfaithful : f.source.Faithful (Fetching.daemon (μ := Message δ) remote) remote 0
    (pastEnd 0 left) :=
    ⟨fun _ _ _ h => h, fun _ _ _ h => (by cases h), Nat.zero_le _, le_of_eq hend⟩
  have hquiet : ∀ w o, Calm w₀ w → Silent o → May f remote w o := by
    intro w o hcalm ho
    have hnone : ∀ d, .digest true d ∉ w.told := by
      rw [hcalm.told, h₀]
      exact htold
    cases o with
    | start work | submit work => exact hnone
    | acquire held | await id | slack length => trivial
    | tell | hear | open_ | consult | create | put | truncate | attributes | rename | link | remove
        | close =>
      exact ho.elim
  refine (PageSender.stream_spec remote f.flip hquiet).conseq ?_ ?_ fun _ _ _ h =>
    ⟨h.covered, fun n hn => by cases hn⟩
  · rintro s w ⟨rfl, hready⟩
    refine ⟨?_, ⟨hready.covered, hready.honest, .refl w⟩, hready.sends⟩
    rw [hready.fresh]
    exact ⟨rfl, rfl, rfl, fun h => h⟩
  · rintro n s' w' ⟨-, hheld, hstreamed⟩
    obtain ⟨-, hwhole, hsends⟩ := hstreamed hfaithful (f.far.readAhead_pos f.tagBase)
    refine ⟨hheld.covered, fun _ _ => ⟨?_, hsends⟩⟩
    rw [hwhole]
    exact slice_zero_of_le (by omega)

theorem onFetch_spec : Triple (io (Fetching.daemon remote)) (May f remote) (Ready f remote [])
      (onFetch (π := π) (γ := γ) f fuel remote.length f.tagBase 0 everything) (fun _ _ _ => True)
      fun _ _ _ => True := by
  have hleft : min everything (remote.length - 0) = remote.length := by
    rw [everything]
    omega
  rw [onFetch]
  refine .bind opened_spec fun _ => .ite (fun _ => ?_) fun _ => ?_
  · refine .ite (fun hbeyond => absurd hbeyond (Nat.not_lt_zero _)) fun _ => ?_
    dsimp only
    refine .bind (M := fun _ => Ready f remote [.reply true (min everything (remote.length - 0))])
      (Pipe.tell_spec ready_stable (fun _ _ _ => hleft) ?_ fun _ _ _ => trivial) fun _ => ?_
    · rintro s w ⟨hfresh, hcovered, hhonest, hsends, htold⟩
      refine ⟨hfresh, hcovered, hhonest, hsends, ?_⟩
      rw [htold]
      rfl
    refine Triple.ite (fun _ => Triple.pure fun _ _ _ => trivial) fun _ => ?_
    refine .bind (onFetch_stream_spec hsize hleft ?_) fun r => ?_
    · intro d hd
      cases mem_singleton.mp hd
    cases r with
    | ok n =>
      refine Triple.readThen fun s₀ => Pipe.tell_spec ?_ ?_ (fun _ _ _ => trivial) fun _ _ _ =>
        trivial
      · exact stable_of_covered fun _ _ h => h.2.1
      · rintro s w ⟨rfl, -, h⟩
        obtain ⟨hwhole, hsends⟩ := h n rfl
        exact ⟨by rw [hwhole], hsends⟩
    | error e =>
      have hstable : Stable (io (π := π) (μ := Message δ) (γ := γ) (Fetching.daemon remote))
          fun (_ : PageSender) w => Covered w [] :=
        stable_of_covered fun _ _ h => h
      refine Triple.bind (M := fun _ _ w => Covered w []) (Pipe.tell_spec ?_ free (fun _ _ h => h.1)
        fun _ _ _ => trivial) fun _ => .readThen fun s₀ => .ite (fun _ => ?_) fun _ =>
          .pure fun _ _ _ => trivial
      · exact stable_of_covered fun _ _ h => h.1
      · refine Triple.bind (M := fun _ _ _ => True) (Triple.ask ?_ free fun _ _ _ _ _ _ => trivial)
          fun _ => .fail fun _ _ _ => trivial
        exact fun s w w' h hd => ⟨h.1, hstable s w w' h.2 hd⟩
  · exact Pipe.tell_spec ready_stable free (fun _ _ _ => trivial) fun _ _ _ => trivial

/-- **What the daemon has told at any point of any run.** -/
theorem onFetch_told {fuel : ℕ} {files : π → Option Bytes}
    {p : Prog (Call π (Message δ) γ) Answer (Except Fault Unit × PageSender)}
    (hreach : Prog.Reaches (io (Fetching.daemon remote))
      (onFetch f fuel remote.length f.tagBase 0 everything { flipOneBit := f.flip }, { files })
      (p, w)) :
    Told f remote w := by
  refine (onFetch_spec hsize _ _ ?_).always (fun _ _ h hd => h.drift hd)
    (fun _ _ _ _ h hmay hperform => h.perform hmay hperform) ?_ hreach
  · refine ⟨rfl, ?_, ?_, ?_, rfl⟩
    · exact covered_of_ops_nil rfl
    · exact nofun
    · exact nofun
  · exact ⟨nofun, nofun⟩

end

end Daemon

/-! ## What the client leaves -/

section Client

variable {π : Type} [DecidableEq π] [DecidableEq δ] (f : Fetching δ) (remote : Bytes)

/-- What the client may hear and be sent by a daemon that has the file. -/
structure Hears (e : Env (Message δ)) : Prop where
  reply : ∀ n, e.hears (.reply true n) → n = remote.length
  digest : ∀ d, e.hears (.digest true d) → d = f.verifier.digest remote ∧
    (f.verifier.on = false → Brings e (f.near.streaming f.tagBase) remote remote.length)
  lengths : ∀ key length bytes, e.brings key length bytes → bytes.length = length

variable {f remote} {e : Env (Message δ)} {w₀ : Io π (Message δ) Unit}

omit [DecidableEq δ] in
theorem Fetching.plain (he : Hears f remote e) : f.sink.Plain e (f.near.streaming f.tagBase) 0 where
  start := rfl
  landing := fun _ _ => rfl
  aligned := by
    intro hdirect
    simp only [sink, Bool.and_eq_true, decide_eq_true_eq] at hdirect
    exact hdirect.1
  lengths := he.lengths

/-- What was hashed is the file, once a digest was heard that it matches. -/
theorem whole_eq (he : Hears f remote e)
    (hsum : ∀ bytes : Bytes, bytes.length = remote.length →
      f.verifier.sum bytes = f.verifier.sum remote →
      bytes = remote) {whole : Bytes} (hlen : whole.length = remote.length)
    (hbrings : Brings e (f.near.streaming f.tagBase) remote remote.length →
      whole = slice remote 0 remote.length) {d : δ} (hd : e.hears (.digest true d))
      (hmatch : f.verifier.accepts whole d = true) : whole = remote := by
  obtain ⟨hdigest, hoff⟩ := he.digest d hd
  cases hon : f.verifier.on with
  | true =>
    refine hsum whole hlen ?_
    rw [Verifier.accepts, hon, Bool.not_true, Bool.false_or, decide_eq_true_eq] at hmatch
    rw [hmatch, hdigest, Verifier.digest, if_pos hon]
  | false =>
    rw [hbrings (hoff hon)]
    exact slice_zero_of_le le_rfl

theorem fetchInto_spec {length : ℕ} {path : π} (he : Hears f remote e)
    (hsize : remote.length < 2 ^ 64) (hsum : ∀ bytes : Bytes, bytes.length = remote.length →
      f.verifier.sum bytes = f.verifier.sum remote →
      bytes = remote) (hlength : length = remote.length) :
    Triple (io e) (fun _ _ => True) (fun s w => s = {} ∧ Held e w₀ [] w ∧ w.temp = some [])
      (fetchInto f fuel path length)
      (fun _ _ w => w.files = Function.update w₀.files path (some remote)) fun _ _ w =>
      Held e w₀ [] w := by
  have hplain := Fetching.plain he
  let R : PageReceiver → Io π (Message δ) Unit → Prop := fun s w =>
    Held e w₀ [] w ∧ Landed length s.whole [] w ∧ s.whole.length = length ∧
      (Brings e (f.near.streaming f.tagBase) remote length → s.whole = slice remote 0 length)
  have hR : Stable (io e) R := stable_of_covered fun _ _ h => h.1.covered
  rw [fetchInto]
  refine Triple.bind (M := fun _ => R) ((PageReceiver.land_spec remote).conseq ?_ ?_ fun _ _ _ h =>
    h) fun _ => ?_
  · exact fun s w h => ⟨h.1, h.2.1, fun _ => h.2.2⟩
  · rintro n s w ⟨-, hheld, hreceived⟩
    obtain ⟨hlanded, hfull, hbrings⟩ := hreceived hplain
    rw [pastEnd_of_lt (by omega), Nat.zero_add] at hlanded hfull hbrings
    exact ⟨hheld, hlanded, hfull, hbrings⟩
  refine Triple.bind (Pipe.hear_spec hR free) fun m => Triple.fact fun hm => ?_
  rcases m with _ | (_ | _ | ⟨ok, theirs⟩)
  · exact .fail fun _ _ h => h.1
  · exact .fail fun _ _ h => h.1
  · exact .fail fun _ _ h => h.1
  · refine .ite (fun _ => .fail fun _ _ h => h.1) fun hok => .readThen fun s₀ =>
      .ite (fun hmatch => ?_) fun _ => .fail fun _ _ h => h.2.1
    refine .bind (M := fun _ _ w => w.files = Function.update w₀.files path (some remote)) ?_
      fun _ =>
      .pure fun _ _ h => h
    refine commit_spec (fun _ _ h => h.2.1.covered) free free free ?_ (fun _ _ h => h.2.1) ?_
    · rintro s w t ⟨rfl, hheld, hlanded, hfull, hbrings⟩ ht
      obtain rfl : ok = true := by simpa using hok
      obtain ⟨t', ht', htrunc⟩ := hlanded.truncated hfull
      obtain rfl : t = t' := Option.mem_unique ht ht'
      have hwhole : s.whole = remote := by
        subst hlength
        exact whole_eq he hsum hfull hbrings (hm _ rfl) hmatch
      rw [Io.renamed, htrunc, hwhole, hheld.calm.files]
    · rintro s w ⟨-, hheld, -⟩
      exact ⟨hheld.covered, hheld.honest, hheld.calm.files, hheld.calm.told, hheld.calm.changes⟩

/-- Before the file is created. -/
structure Idle (e : Env (Message δ)) (files : π → Option Bytes) (s : PageReceiver)
    (w : Io π (Message δ) Unit) : Prop where
  fresh : s = {}
  covered : Covered w []
  honest : w.Honest e
  files : w.files = files

variable {files : π → Option Bytes}

/-- **What a fetch leaves at the local path.** -/
theorem fetch_spec {fuel : ℕ} {path : π} (he : Hears f remote e) (hsize : remote.length < 2 ^ 64)
    (hsum : ∀ bytes : Bytes, bytes.length = remote.length →
      f.verifier.sum bytes = f.verifier.sum remote → bytes = remote) :
      Triple (io e) (fun _ _ => True) (Idle e files) (fetch f fuel path)
      (fun _ _ w => (remote = [] ∧ w.files = files) ∨
      w.files = Function.update files path (some remote)) fun _ _ w => w.files = files := by
  have hidle : Stable (io e) (Idle (π := π) e files) := stable_of_covered fun _ _ h => h.covered
  rw [fetch]
  refine Triple.bind (M := fun _ => Idle e files) (Pipe.tell_spec hidle free ?_ fun _ _ h =>
    h.files) fun _ => Triple.bind (Pipe.hear_spec hidle free) fun m =>
      .fact fun hm => ?_
  · exact fun s w h => { h with }
  rcases m with _ | (_ | ⟨ok, length⟩ | _)
  · exact .fail fun _ _ h => h.files
  · exact .fail fun _ _ h => h.files
  · refine .ite (fun _ => .fail fun _ _ h => h.files) fun hok => ?_
    obtain rfl : ok = true := by simpa using hok
    have hlength := he.reply length (hm _ rfl)
    refine .ite (fun hzero => .pure fun s w h => .inl ⟨?_, h.files⟩) fun _ => ?_
    · exact length_eq_zero_iff.mp (by omega)
    refine .bind (M := fun _ s w => Idle e files s w ∧ w.temp = some [])
      (Pipe.orFail_spec (Triple.ask hidle free ?_)) fun _ => ?_
    · rintro s w (_ | _) w' hs rfl
      · exact hs.files
      · exact ⟨{ hs with }, rfl⟩
    refine Triple.now fun w₀ => Triple.given (c := w₀.files = files) (fun _ _ h =>
      h.1 ▸ h.2.1.files) fun h₀ => ?_
    let N : Except Fault ℕ → PageReceiver → Io π (Message δ) Unit → Prop
      | .ok _, _, w => w.files = Function.update files path (some remote)
      | .error _, _, w => Held e w₀ [] w
    refine .bind (M := N)
      (.outcome ((fetchInto_spec he hsize hsum hlength).conseq ?_ ?_ fun _ _ _ h => h)) fun r => ?_
    · rintro s w ⟨rfl, h, htemp⟩
      exact ⟨h.fresh, ⟨h.covered, h.honest, .refl w⟩, htemp⟩
    · intro _ s w h
      rw [h₀] at h
      exact h
    cases r with
    | ok n => exact .pure fun _ _ h => .inr h
    | error fault =>
      refine .bind (M := fun _ _ w => w.files = files)
        (.ask (stable_of_covered fun _ _ h => h.covered) free ?_) fun _ => .fail fun _ _ h => h
      rintro s w _ w' h rfl
      exact h.calm.files.trans h₀
  · exact .fail fun _ _ h => h.files

/-! ## The two together -/

variable (f) in
/-- What the client may hear and be brought, from what the daemon has told and started. -/
def Fetching.client (told : List (Message δ)) (works : List Work) : Env (Message δ) where
  brings := fun key length bytes => bytes.length = length ∧
    (f.verifier.on = false → Work.send key bytes ∈ works)
  hears := fun m => m ∈ told

omit [DecidableEq π] [DecidableEq δ] in
/-- A client of the daemon hears what a client should. -/
theorem hears_of_told {w : Io π (Message δ) Unit} (h : Told f remote w)
    (hsize : remote.length < 2 ^ 63) (hflip : f.verifier.on = false → f.flip = false) :
    Hears f remote (f.client w.told w.works) where
  reply := h.reply
  lengths := fun _ _ _ hb => hb.1
  digest := by
    intro d hd
    obtain ⟨hdigest, hsends⟩ := h.digest d hd
    refine ⟨hdigest, fun hoff offset length bytes hle hb => ?_⟩
    obtain ⟨hlen, hsent⟩ := hb
    obtain ⟨there, hkey, hslice, hend⟩ := hsends (hflip hoff) _ _ (hsent hoff)
    -- two offsets of the file have one key only if they are the same
    have hsame : there = offset := by
      simp only [Streaming.key, Pool.streaming] at hkey
      omega
    rw [hsame, hlen] at hslice
    exact hslice

variable (f remote) in
/-- Whatever the daemon does, a fetch that returns has left the remote file at the local path, or an
error and the path as it was. -/
def Fetches (path : π) (files : π → Option Bytes) : Prop :=
  ∀ (fuel fuel' : ℕ) (there : π → Option Bytes)
    (p : Prog (Call π (Message δ) Unit) Answer (Except Fault Unit × PageSender))
    (w : Io π (Message δ) Unit), Prog.Reaches (io (Fetching.daemon remote))
      (onFetch f fuel remote.length f.tagBase 0 everything { flipOneBit := f.flip },
      { files := there }) (p, w) →
    ∀ (r : Except Fault ℕ) (s : PageReceiver) (v : Io π (Message δ) Unit),
      Prog.Reaches (io (f.client w.told w.works)) (fetch f fuel' path {}, { files })
      (.ret (r, s), v) → (∀ n, r = .ok n → v.files path = some remote) ∧ ∀ fault, r = .error fault →
        v.files path = files path

theorem fetches_of_nonempty (hsize : remote.length < 2 ^ 63)
    (hsum : ∀ bytes : Bytes, bytes.length = remote.length →
      f.verifier.sum bytes = f.verifier.sum remote →
      bytes = remote) (hflip : f.verifier.on = false → f.flip = false) {path : π}
    (hcond : remote ≠ [] ∨ files path = some []) : Fetches f remote path files := by
  intro fuel fuel' there p w hdaemon r s v hreach
  have he := hears_of_told (onFetch_told (by omega) hdaemon) hsize hflip
  have hstart : Idle (f.client w.told w.works) files {} { files } :=
    ⟨rfl, covered_of_ops_nil rfl, nofun, rfl⟩
  obtain ⟨v₀, hdrift, hv⟩ := (fetch_spec he (by omega) hsum _ _ hstart).returns hreach
  rw [(Calm.drifts hdrift).files]
  cases r with
  | ok n =>
    refine ⟨fun _ _ => ?_, fun fault h => by cases h⟩
    rcases hv with ⟨rfl, hfiles⟩ | hfiles
    · rw [hfiles]
      exact hcond.resolve_left fun h => h rfl
    · rw [hfiles, Function.update_self]
  | error fault =>
    exact ⟨fun n h => (by cases h), fun _ _ => congrFun hv path⟩

/-- A file of no bytes: the daemon replies with its length, and the client returns. -/
theorem fetch_empty (hempty : remote = []) (path : π) (files : π → Option Bytes) :
    ∃ p w s v, Prog.Reaches (io (Fetching.daemon remote))
      (onFetch (π := π) (γ := Unit) f 0 remote.length f.tagBase 0 everything
      { flipOneBit := f.flip }, { files }) (p, w) ∧
    Prog.Reaches (io (f.client w.told w.works)) (fetch f 0 path {}, { files })
    (.ret (.ok 0, s), v) ∧ v.files = files := by
  subst hempty
  let told : Io π (Message δ) Unit := { files, told := [.reply true 0] }
  refine ⟨.ret (.ok (), { flipOneBit := f.flip }), told, {},
    { files, told := [.fetch f.tagBase 0 everything] }, ?_, ?_, rfl⟩
  · refine .ask true { files } rfl ?_
    refine .ask true { files } rfl ?_
    refine .ask true told rfl ?_
    exact .refl
  · refine .ask true _ rfl ?_
    refine .ask (some (.reply true 0)) _ ⟨?_, rfl⟩ ?_
    · rintro m ⟨⟩
      exact mem_singleton_self _
    · exact .refl

/-- **A fetch yields the remote file or leaves the path alone**, but for a remote file of no bytes
where the path holds something else. -/
theorem fetch_yields_remote_iff (f : Fetching δ) (remote : Bytes) (hsize : remote.length < 2 ^ 63)
    (hsum : ∀ bytes : Bytes, bytes.length = remote.length →
      f.verifier.sum bytes = f.verifier.sum remote →
      bytes = remote) (hflip : f.verifier.on = false → f.flip = false) (path : π)
      (files : π → Option Bytes) :
    Fetches f remote path files ↔ remote ≠ [] ∨ files path = some [] := by
  refine ⟨fun h => ?_, fetches_of_nonempty hsize hsum hflip⟩
  by_cases hempty : remote = []
  · right
    obtain ⟨p, w, s, v, hdaemon, hclient, hfiles⟩ := fetch_empty (f := f) hempty path files
    have hleft := (h 0 0 files p w hdaemon _ s v hclient).1 0 rfl
    rw [hfiles] at hleft
    rw [hleft, hempty]
  · exact .inl hempty

end Client

/-- Pages that are read and written directly, and a digest that is the file itself. -/
def plainFetching : Fetching Bytes where
  verifier := ⟨true, id, []⟩
  near := ⟨4096, 3, 2, 2⟩
  far := ⟨4096, 3, 2, 2⟩
  tagBase := 0
  granted := true
  direct := true
  flip := false

/-- As much as a page holds. -/
def fullPage : Bytes := List.replicate 4096 7

instance (remote : Bytes) : (Fetching.daemon (μ := Message δ) remote).Checked where
  reads offset length bytes := inferInstanceAs (Decidable (bytes = slice remote offset length))
  brings _ _ _ := .isTrue trivial
  basis _ _ _ := .isTrue trivial
  hears _ := .isTrue trivial

instance [DecidableEq δ] (f : Fetching δ) (told : List (Message δ)) (works : List Work) :
    (f.client told works).Checked where
  reads _ _ _ := .isTrue trivial
  brings key length bytes := inferInstanceAs (Decidable (bytes.length = length ∧
    (f.verifier.on = false → Work.send key bytes ∈ works)))
  basis _ _ _ := .isTrue trivial
  hears m := inferInstanceAs (Decidable (m ∈ told))

set_option maxRecDepth 100000 in
/-- A page and a byte are fetched: the condition is met, and there is a run that ends well.  What is
written behind the byte to fill the second page is cut off again. -/
theorem fetch_yields_two_pages :
    Fetches plainFetching (fullPage ++ [9]) () (fun _ => none) ∧
      ∃ r w s v, Prog.Reaches (io (Fetching.daemon (fullPage ++ [9])))
        (onFetch (γ := Unit) plainFetching 3 4097 0 0 everything {},
        { files := fun (_ : Unit) => none }) (.ret r, w) ∧
      Prog.Reaches (io (plainFetching.client w.told w.works))
      (fetch plainFetching 3 () {}, { files := fun _ => none }) (.ret (.ok 4097, s), v) ∧
      v.files () = some (fullPage ++ [9]) := by
  refine ⟨(fetch_yields_remote_iff plainFetching (fullPage ++ [9]) ?_ (fun _ _ h => h) (fun _ =>
    rfl) () _).mpr (.inl (append_ne_nil_of_right_ne_nil _ (cons_ne_nil _ _))), ?_⟩
  · rw [length_append, fullPage, length_replicate]
    decide
  -- opened twice, the reply; a page, its read, its send, twice; the digest
  have hdaemon : leads (Fetching.daemon (fullPage ++ [9]))
      [.yes, .yes, .yes, .yes, .yes, .ends 0 (.done fullPage), .yes, .yes, .yes, .yes,
      .ends 2 (.done [9]), .ends 1 (.done []), .yes, .yes, .yes, .ends 3 (.done []), .yes, .yes]
      (onFetch (γ := Unit) plainFetching 3 4097 0 0 everything {})
        { files := fun (_ : Unit) => none }
      (fun _ w => w.told = [.reply true 4097, .digest true (fullPage ++ [9])] ∧
        w.works = [.read 0 4096, .send 0 fullPage, .read 4096 4096, .send 4096 [9]]) = true := by
    decide +kernel
  -- the request, the reply; a file; a page, its receive, its write, twice; the digest; the commit
  have hclient : leads (plainFetching.client [.reply true 4097, .digest true (fullPage ++ [9])]
        [.read 0 4096, .send 0 fullPage, .read 4096 4096, .send 4096 [9]])
      [.yes, .reply (.heard (some (.reply true 4097))), .yes, .yes, .yes, .ends 0 (.done fullPage),
        .yes, .reply (.gives (some [])), .yes, .yes, .yes, .ends 2 (.done [9]), .yes,
        .reply (.gives (some (fullPage.drop 1))), .yes, .ends 1 (.done []), .ends 3 (.done []),
          .yes, .yes,
        .reply (.heard (some (.digest true (fullPage ++ [9])))), .yes, .yes, .yes]
      (fetch plainFetching 3 () {}) { files := fun (_ : Unit) => none }
      (fun x v => x.1 = .ok 4097 ∧ v.files () = some (fullPage ++ [9])) = true := by
    decide +kernel
  obtain ⟨r, w, hrun, hw⟩ := exists_of_leads hdaemon
  obtain ⟨⟨out, s⟩, v, hrun', hv⟩ := exists_of_leads hclient
  obtain ⟨htold, hworks⟩ := of_decide_eq_true hw
  obtain ⟨rfl, hfiles⟩ := of_decide_eq_true hv
  refine ⟨r, w, s, v, hrun, ?_, hfiles⟩
  rw [htold, hworks]
  exact hrun'

/-- **An empty remote file leaves the old local file**, and the fetch returns success. -/
theorem fetch_empty_keeps_old_file :
    (∀ bytes, plainFetching.verifier.sum bytes = plainFetching.verifier.sum [] → bytes = []) ∧
      ¬ Fetches plainFetching [] () (fun _ => some [1]) := by
  refine ⟨fun _ h => h, fun h => ?_⟩
  obtain ⟨p, w, s, v, hdaemon, hclient, hfiles⟩ :=
    fetch_empty (f := plainFetching) rfl () (fun _ => some [1])
  have hleft := (h 0 0 _ p w hdaemon _ s v hclient).1 0 rfl
  rw [hfiles] at hleft
  cases hleft

end Rail.Transfer
