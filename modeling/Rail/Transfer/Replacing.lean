import Rail.Transfer.Receive

/-!
# A receiver replaces a destination all at once

Whatever the sender says and sends and whatever fails, what is found at a destination changes by a
rename only, one for each file; and a rename is asked for only when everything that was started has
worked, the bytes taken hash to the sender's digest, and the temporary file is their concatenation
if the instructions leave no gap (`Good`).

* `Inv`: while a file is received.  Every operation that has not worked is in one of the two queues;
  the bytes hashed are those of the instructions in their order; and what was hashed lands
  (`Landed`).
* `Between`: between files nothing is outstanding and no temporary file is there.
* `session_spec`: from these, over a whole session.
-/

namespace Rail.Transfer
namespace Receive

open List Function ByteFile Coroutine
open Delta (Signature blockLengthAt)

/-- Places that follow each other from one offset to another. -/
def Contiguous : ℕ → List (ℕ × ℕ) → ℕ → Prop
  | a, [], b => a = b
  | a, (offset, length) :: rest, b => offset = a ∧ Contiguous (a + length) rest b

variable {length offset : ℕ}

theorem contiguous_snoc {a b : ℕ} {l : List (ℕ × ℕ)}
    (h : Contiguous a (l ++ [(offset, length)]) b) :
    Contiguous a l offset ∧ offset + length = b := by
  induction l generalizing a with
  | nil =>
    obtain ⟨rfl, h⟩ := h
    exact ⟨rfl, h⟩
  | cons p rest ih =>
    obtain ⟨rfl, h⟩ := h
    exact ⟨⟨rfl, (ih h).1⟩, (ih h).2⟩

theorem length_content {a b : ℕ} {ps : List Piece} (h : Contiguous a (places ps) b) :
    a + (content ps).length = b := by
  induction ps generalizing a with
  | nil => exact h
  | cons p rest ih =>
    have hrest := ih h.2
    rw [content, flatMap_cons, length_append]
    rw [content] at hrest
    omega

section Invariant

variable {π ν δ : Type} (c : Config π ν δ) (e : Env (Message ν δ))

/-- The operations that the receiver has to look after. -/
def ids (s : Receive) : List ℕ := s.receiving.map Posted.id ++ s.writing

/-- A literal was received whole and is being written, or has been; a copy is what the basis read
as. -/
def Stored (tagBase : ℕ) (sig : Signature) (writing : List ℕ) (w : Io π (Message ν δ) (Note δ)) :
    Piece → Prop
  | .literal offset id bytes =>
    w.ops[id]? = some ⟨.recv ((c.streaming tagBase).key offset) bytes.length, some (.done bytes)⟩ ∧
      ∃ wid pad, w.works[wid]? = some (.write offset (bytes ++ pad)) ∧
        (wid ∈ writing ∨ ∃ b, w.ops[wid]? = some ⟨.write offset (bytes ++ pad), some (.done b)⟩)
  | .copy _ block bytes =>
      e.basis (block * sig.blockLength) bytes.length bytes ∧ bytes.length = blockLengthAt sig block

theorem own_of_covered {s : Receive} {w : Io π (Message ν δ) (Note δ)} (h : Covered w []) :
    Own ids s w :=
  h.mono (nil_subset _)

/-- When a rename is in order. -/
structure Good (w : Io π (Message ν δ) (Note δ)) (n : Note δ) : Prop where
  settled : ∀ op ∈ w.ops, ∃ b, op.outcome = some (.done b)
  stored : ∀ piece ∈ n.pieces, Stored c e n.tagBase n.sig [] w piece
  order : places n.pieces = n.order
  digest : c.sum (content n.pieces) = n.theirs
  whole : Contiguous 0 n.order n.size → w.temp = some (content n.pieces)
  once : ∀ path bytes m, .renamed path bytes m ∈ w.changes → m.index < n.index

/-- What the receiver may ask for: a rename when it is in order, a temporary file when there is
none. -/
def Ok (w : Io π (Message ν δ) (Note δ)) : Call π (Message ν δ) (Note δ) → Prop
  | .rename _ n => Good c e w n
  | .create => w.temp = none
  | _ => True

/-- What the code does, and keeps hold of if it fails. -/
abbrev Spec [DecidableEq π] {α : Type} (P : Receive → Io π (Message ν δ) (Note δ) → Prop)
    (m : Pipe π (Message ν δ) (Note δ) Receive α) (Q : α → Receive → Io π (Message ν δ) (Note δ) →
      Prop) : Prop :=
  Triple (io e) (Ok c e) P m Q fun _ => Own ids

variable (t : Target π) (w₀ : Io π (Message ν δ) (Note δ))

/-- What was hashed lands, as far as the instructions leave no gap. -/
structure Sound (s : Receive) (w : Io π (Message ν δ) (Note δ)) : Prop where
  aligned : ∀ p ∈ s.receiving, t.direct = true → p.length % directAlignment = 0 ∨
    p.offset + p.length = t.size
  landed : ∀ a, Contiguous 0 (places s.pieces) a → a ≤ t.size → Landed t.size s.whole s.writing w

/-- What a receiver keeps to while it receives a file. -/
structure Inv (at_ : ℕ) (s : Receive) (w : Io π (Message ν δ) (Note δ)) : Prop where
  held : Held e w₀ s.ids w
  settled : ∀ id op, w.ops[id]? = some op → id ∈ s.ids ∨ ∃ b, op.outcome = some (.done b)
  asked : ∀ p ∈ s.receiving,
    w.works[p.id]? = some (.recv ((c.streaming t.tagBase).key p.offset) p.length)
  stored : ∀ piece ∈ s.pieces, Stored c e t.tagBase s.sig s.writing w piece
  order : places s.pieces ++ s.receiving.map (fun p => (p.offset, p.length)) = s.order
  whole : s.whole = content s.pieces
  sound : Sound t s w ∨ PageReceiver.Doomed (c.streaming t.tagBase) t.size at_

/-- A page has come, and is at the front still. -/
structure Took (at_ : ℕ) (p : Posted) (bytes : Bytes) (s : Receive)
    (w : Io π (Message ν δ) (Note δ)) : Prop where
  inv : Inv c e t w₀ at_ s w
  front : ∃ rest, s.receiving = p :: rest
  ended : w.ops[p.id]? = some ⟨.recv ((c.streaming t.tagBase).key p.offset) p.length,
    some (.done bytes)⟩

/-- A temporary file has just been created. -/
structure Opened (index : ℕ) (s : Receive) (w : Io π (Message ν δ) (Note δ)) : Prop where
  fresh : s.receiving = [] ∧ s.writing = [] ∧ s.whole = [] ∧ s.order = [] ∧ s.pieces = []
  covered : Covered w []
  honest : w.Honest e
  settled : ∀ op ∈ w.ops, ∃ b, op.outcome = some (.done b)
  temp : w.temp = some []
  once : ∀ path bytes n, .renamed path bytes n ∈ w.changes → n.index < index

/-- Between files. -/
structure Between (index : ℕ) (s : Receive) (w : Io π (Message ν δ) (Note δ)) : Prop where
  receiving : s.receiving = []
  writing : s.writing = []
  covered : Covered w []
  honest : w.Honest e
  settled : ∀ op ∈ w.ops, ∃ b, op.outcome = some (.done b)
  temp : w.temp = none
  once : ∀ path bytes n, .renamed path bytes n ∈ w.changes → n.index < index

end Invariant

section Invariant

variable {π ν δ : Type} {c : Config π ν δ} {e : Env (Message ν δ)} {t : Target π}
  {w₀ : Io π (Message ν δ) (Note δ)} {at_ : ℕ} {s : Receive} {w w' : Io π (Message ν δ) (Note δ)}

/-! ### Steps of the world -/

variable {bytes : Bytes} {at' fuel id index tagBase : ℕ} {p : Posted} {work : Work}
  {h : FileHeader ν} {piece : Piece} {sig : Signature} {writing : List ℕ}

theorem Stored.mono {writing' : List ℕ} (h : Stored c e tagBase sig writing w piece)
    (hsub : writing ⊆ writing') (hworks : ∀ (id : ℕ) work, w.works[id]? = some work →
      w'.works[id]? = some work)
      (hops : ∀ (id : ℕ) work b, w.ops[id]? = some ⟨work, some (.done b)⟩ →
      w'.ops[id]? = some ⟨work, some (.done b)⟩) :
    Stored c e tagBase sig writing' w' piece := by
  cases piece with
  | copy offset block bytes => exact h
  | literal offset id bytes =>
    obtain ⟨hended, wid, pad, hwork, hwrite⟩ := h
    refine ⟨hops _ _ _ hended, wid, pad, hworks _ _ hwork, hwrite.imp (fun hmem => hsub hmem) ?_⟩
    rintro ⟨b, hb⟩
    exact ⟨b, hops _ _ _ hb⟩

theorem Stored.begin {writing' : List ℕ} (h : Stored c e tagBase sig writing w piece)
    (hsub : writing ⊆ writing') : Stored c e tagBase sig writing' (w.begin_ work) piece :=
  h.mono hsub (fun _ _ => works_begin_of_some) fun _ _ _ => Landed.getElem?_begin_of_some

/-- The first write waited for has worked. -/
theorem Stored.reap (h : Stored c e tagBase sig (id :: writing) w piece)
    (hended : w.ops[id]? = some ⟨work, some (.done bytes)⟩) :
    Stored c e tagBase sig writing w piece := by
  cases piece with
  | copy offset block bytes => exact h
  | literal offset rid page =>
    obtain ⟨hrecv, wid, pad, hwork, hwrite⟩ := h
    refine ⟨hrecv, wid, pad, hwork, ?_⟩
    rcases hwrite with hmem | hdone
    · rcases mem_cons.mp hmem with rfl | hmem
      · rw [works_getElem? hended] at hwork
        cases hwork
        exact .inr ⟨bytes, hended⟩
      · exact .inl hmem
    · exact .inr hdone

/-- Whatever has not worked is among these operations. -/
def Settled (w : Io π (Message ν δ) (Note δ)) (ids : List ℕ) : Prop :=
  ∀ id op, w.ops[id]? = some op → id ∈ ids ∨ ∃ b, op.outcome = some (.done b)

theorem settled_drift {ids : List ℕ} (h : Settled w ids) (hd : drift e w w') : Settled w' ids := by
  obtain ⟨i, work, r, hi, hops⟩ := drift_ops hd
  intro id op hop
  rw [hops, getElem?_set] at hop
  split_ifs at hop with heq hlt
  · subst heq
    -- it had not ended, so it is listed
    refine .inl ((h i _ hi).resolve_right ?_)
    rintro ⟨b, hb⟩
    cases hb
  · exact h id op hop

theorem settled_begin {ids ids' : List ℕ} (h : Settled w ids)
    (hsub : ids ++ [w.ops.length] ⊆ ids') : Settled (w.begin_ work) ids' := by
  intro id op hop
  rcases Landed.getElem?_of_begin hop with hop | ⟨rfl, -⟩
  · exact (h id op hop).imp_left fun hmem => hsub (mem_append_left _ hmem)
  · exact .inl (hsub (mem_append_right _ mem_cons_self))

theorem settled_drop {ids ids' : List ℕ} {i : ℕ} (h : Settled w ids)
    (hended : w.ops[i]? = some ⟨work, some (.done bytes)⟩) (hsub : ∀ j ∈ ids, j = i ∨ j ∈ ids') :
    Settled w ids' := by
  intro id op hop
  rcases h id op hop with hmem | hdone
  · rcases hsub id hmem with rfl | hmem
    · rw [hended] at hop
      cases hop
      exact .inr ⟨bytes, rfl⟩
    · exact .inl hmem
  · exact .inr hdone

theorem inv_stable [DecidableEq π] : Stable (io e) (Inv c e t w₀ at_) := by
  intro s w w' h hd
  have hworks := works_of_drift hd
  refine ⟨h.held.drift hd, settled_drift h.settled hd, ?_, fun p hp => ?_, h.order, h.whole, ?_⟩
  · rw [hworks]
    exact h.asked
  · exact (h.stored p hp).mono (.refl _) (fun _ _ hw => by rwa [hworks]) fun _ _ _ =>
      ended_of_drift hd
  · exact h.sound.imp_left fun hs => ⟨hs.aligned, fun a ha hle => (hs.landed a ha hle).drift hd⟩

/-! ### Steps of the receiver -/

/-- A write that worked is taken off. -/
theorem Inv.pop_writing (h : Inv c e t w₀ at_ s w) {rest : List ℕ} (hq : s.writing = id :: rest)
    (hended : w.ops[id]? = some ⟨work, some (.done bytes)⟩) : Inv c e t w₀ at_ s.popWriting w where
  held := h.held.drop hended (mem_of_pop_right hq)
  settled := settled_drop h.settled hended (mem_of_pop_right hq)
  asked := h.asked
  stored := by
    intro piece hp
    have hstored := h.stored piece hp
    rw [hq] at hstored
    rw [popWriting, hq]
    exact hstored.reap hended
  order := h.order
  whole := h.whole
  sound := h.sound.imp_left fun hs => by
    refine ⟨hs.aligned, fun a ha hle => ?_⟩
    have hlanded := hs.landed a ha hle
    rw [hq] at hlanded
    rw [popWriting, hq]
    exact hlanded.reap hended

theorem ids_posted (s : Receive) (offset length id : ℕ) :
    s.ids ++ [id] ⊆ (s.posted offset length id).ids := by
  rw [ids, ids, posted, map_append]
  exact push_left_subset _ _ _

theorem ids_handed (s : Receive) (id : ℕ) : s.ids ++ [id] ⊆ (s.handed id).ids := by
  rw [ids, ids, append_assoc]
  exact .refl _

section Post

variable (hdoomed : PageReceiver.Doomed (c.streaming t.tagBase) t.size at_ →
      PageReceiver.Doomed (c.streaming t.tagBase) t.size at')
    (halign : (t.direct = true → length % directAlignment = 0 ∨ offset + length = t.size) ∨
      PageReceiver.Doomed (c.streaming t.tagBase) t.size at')
include hdoomed halign

/-- A receive is posted for the next instruction. -/
theorem Inv.post (h : Inv c e t w₀ at_ s w) : Inv c e t w₀ at' (s.posted offset length w.ops.length)
      (w.begin_ (.recv ((c.streaming t.tagBase).key offset) length)) where
  held := h.held.begin _ (ids_posted s offset length _)
  settled := settled_begin h.settled (ids_posted s offset length _)
  asked := forall_mem_append.mpr ⟨fun p hp => works_begin_of_some (h.asked p hp),
    forall_mem_singleton.mpr (works_begin_last w _)⟩
  stored := fun piece hp => (h.stored piece hp).begin (.refl _)
  order := by
    rw [posted, map_append, ← append_assoc, h.order]
    rfl
  whole := h.whole
  sound := by
    rcases h.sound with hs | hd
    · rcases halign with halign | hd'
      · exact .inl ⟨forall_mem_append.mpr ⟨hs.aligned, forall_mem_singleton.mpr halign⟩,
          fun a ha hle => (hs.landed a ha hle).begin_ fun _ _ hw => by cases hw⟩
      · exact .inr hd'
    · exact .inr (hdoomed hd)

theorem post_spec [DecidableEq π] :
    Spec c e (Inv c e t w₀ at_) (post c t offset length) fun _ => Inv c e t w₀ at' :=
  Pipe.launch_spec inv_stable free fun _ _ h => h.post hdoomed halign

end Post

theorem Took.stable [DecidableEq π] : Stable (io e) (Took c e t w₀ at_ p bytes) :=
  fun s w w' h hd => ⟨inv_stable s w w' h.inv hd, h.front, ended_of_drift hd h.ended⟩

theorem Took.held (h : Took c e t w₀ at_ p bytes s w) :
    Held e w₀ (s.popReceiving.hashed p bytes).ids w := by
  obtain ⟨rest, hq⟩ := h.front
  exact h.inv.held.drop h.ended (mem_of_pop_left hq)

/-- A page is hashed, and its write is submitted. -/
theorem Took.written {tail : Bytes} (h : Took c e t w₀ at_ p bytes s w)
    (hlen : bytes.length = p.length)
    (htail : tail.length = min (t.sink.writeLength bytes.length) c.pageSize - bytes.length) :
    Inv c e t w₀ at_ ((s.popReceiving.hashed p bytes).handed w.ops.length)
      (w.begin_ (.write p.offset (bytes ++ tail))) := by
  obtain ⟨rest, hq⟩ := h.front
  have hsettled := settled_drop h.inv.settled h.ended (mem_of_pop_left hq)
  refine ⟨h.held.begin _ (ids_handed _ _),
    settled_begin hsettled (ids_handed (hashed p bytes (popReceiving s)) _), ?_, ?_, ?_, ?_, ?_⟩
  · intro q hmem
    have hold : q ∈ s.receiving := by
      rw [hq]
      rw [handed, hashed, popReceiving, hq] at hmem
      exact mem_cons_of_mem _ hmem
    exact works_begin_of_some (h.inv.asked q hold)
  · intro piece hp
    rcases mem_append.mp hp with hp | hp
    · exact (h.inv.stored piece hp).begin (subset_append_left _ _)
    · obtain rfl := mem_singleton.mp hp
      refine ⟨?_, w.ops.length, tail, ?_, .inl (mem_append_right _ mem_cons_self)⟩
      · rw [hlen]
        exact Landed.getElem?_begin_of_some h.ended
      · exact works_begin_last w _
  · have horder := h.inv.order
    rw [hq, map_cons] at horder
    rw [handed, hashed, popReceiving, hq]
    rw [← horder]
    simp only [places, map_append, map_cons, map_nil, tail_cons,
      Piece.place, Piece.offset, Piece.bytes, hlen, append_assoc, cons_append, nil_append]
  · simp only [handed, hashed, popReceiving, h.inv.whole, content, flatMap_append, flatMap_cons,
      flatMap_nil, append_nil, Piece.bytes]
  · refine h.inv.sound.imp_left fun hs => ⟨?_, fun a ha hle => ?_⟩
    · intro q hmem
      refine hs.aligned q ?_
      rw [hq]
      rw [handed, hashed, popReceiving, hq] at hmem
      exact mem_cons_of_mem _ hmem
    · -- the page goes on from what was hashed, so its offset is the length of that
      have ha' : Contiguous 0 (places s.pieces ++ [(p.offset, bytes.length)]) a := by
        rw [places] at ha ⊢
        rwa [handed, hashed, popReceiving, map_append] at ha
      obtain ⟨hold, hend⟩ := contiguous_snoc ha'
      have hoffset : p.offset = s.whole.length := by
        rw [h.inv.whole, ← length_content hold, Nat.zero_add]
      have hlanded := hs.landed p.offset hold (by omega)
      have hpad : tail = [] ∨ s.whole.length + bytes.length = t.size := by
        by_cases hlast : p.offset + p.length = t.size
        · exact .inr (by omega)
        · refine .inl (length_eq_zero_iff.mp ?_)
          rw [htail]
          exact PageReceiver.writeLength_sub (p := p) (c := c.streaming t.tagBase) (fun hd =>
            (hs.aligned p (by rw [hq]; exact mem_cons_self) hd).resolve_right hlast) hlen
      rw [hoffset]
      exact hlanded.write (by omega) hpad

/-- A copy is hashed and written at once, with nothing on its way. -/
theorem Inv.copied (h : Inv c e t w₀ at_ s w) (hreceiving : s.receiving = [])
    (hwriting : s.writing = []) {block dst : ℕ}
    (hbasis : e.basis (block * s.sig.blockLength) bytes.length bytes)
    (hlen : bytes.length = blockLengthAt s.sig block) :
    Inv c e t w₀ at_ (s.copied block dst bytes) (w.land dst bytes) where
  held := ⟨h.held.covered, h.held.honest, h.held.calm.files, h.held.calm.told, h.held.calm.changes⟩
  settled := h.settled
  asked := h.asked
  stored := forall_mem_append.mpr ⟨h.stored, forall_mem_singleton.mpr ⟨hbasis, hlen⟩⟩
  order := by
    have horder := h.order
    rw [hreceiving, map_nil, append_nil] at horder
    rw [Receive.copied, hreceiving, ← horder]
    simp only [places, map_append, map_cons, map_nil, append_nil, Piece.place, Piece.offset,
      Piece.bytes]
  whole := by
    simp only [Receive.copied, h.whole, content, flatMap_append, flatMap_cons, flatMap_nil,
      append_nil, Piece.bytes]
  sound := by
    refine h.sound.imp_left fun hs => ⟨hs.aligned, fun a ha hle => ?_⟩
    have ha' : Contiguous 0 (places s.pieces ++ [(dst, bytes.length)]) a := by
      rw [places] at ha ⊢
      rwa [Receive.copied, map_append] at ha
    obtain ⟨hold, hend⟩ := contiguous_snoc ha'
    have hoffset : dst = s.whole.length := by
      rw [h.whole, ← length_content hold, Nat.zero_add]
    have hlanded := hs.landed dst hold (by omega)
    rw [hwriting] at hlanded
    rw [Receive.copied, hwriting, hoffset]
    exact hlanded.put (by omega)

/-- **A rename is in order** once both queues are drained and the digests agree. -/
theorem Inv.good (h : Inv c e t w₀ at_ s w) (hreceiving : s.receiving = [])
    (hwriting : s.writing = []) (hat : t.size ≤ at_) {theirs : δ} (hsum : c.sum s.whole = theirs)
    (honce : ∀ path bytes n, .renamed path bytes n ∈ w₀.changes → n.index < t.index) :
    Good c e (w.trimmed t.size) (note t s theirs) where
  settled := by
    intro op hop
    obtain ⟨id, hid⟩ := mem_iff_getElem?.mp hop
    refine (h.settled id op hid).resolve_left ?_
    rw [ids, hreceiving, hwriting]
    exact not_mem_nil
  stored := by
    intro piece hp
    have hstored := h.stored piece hp
    rw [hwriting] at hstored
    exact hstored
  order := by
    have horder := h.order
    rwa [hreceiving, map_nil, append_nil] at horder
  digest := by
    rw [← hsum, h.whole]
    rfl
  whole := by
    intro hall
    have hplaces : places s.pieces = s.order := by
      have horder := h.order
      rwa [hreceiving, map_nil, append_nil] at horder
    have hall' : Contiguous 0 (places s.pieces) t.size := by
      rw [hplaces]
      exact hall
    have hs := h.sound.resolve_right fun hd => absurd hd.1 (Nat.not_lt.mpr hat)
    have hlanded := hs.landed t.size hall' le_rfl
    rw [hwriting] at hlanded
    have hfull : s.whole.length = t.size := by
      rw [h.whole, ← length_content hall', Nat.zero_add]
    obtain ⟨old, hold, htrunc⟩ := hlanded.truncated hfull
    rw [Io.trimmed, hold, Option.map_some, htrunc, h.whole]
    rfl
  once := by
    intro path bytes n hn
    refine honce path bytes n ?_
    rw [← h.held.calm.changes]
    exact hn

/-! ### The code -/

variable [DecidableEq π]
  (he : ∀ key length bytes, e.brings key length bytes → bytes.length = length)

include he

theorem keep_spec :
    Spec c e (fun s w => ∃ u, s = popReceiving u ∧ Took c e t w₀ at_ p bytes u w) (keep c t p bytes)
    fun _ => Inv c e t w₀ at_ := by
  rw [keep]
  have hstable : Stable (io e) fun s w => ∃ u, s = hashed p bytes (popReceiving u) ∧
      Took c e t w₀ at_ p bytes u w := by
    rintro s w w' ⟨u, hs, h⟩ hd
    exact ⟨u, hs, .stable u w w' h hd⟩
  refine .bind (M := fun _ s w => ∃ u, s = hashed p bytes (popReceiving u) ∧
    Took c e t w₀ at_ p bytes u w) (.modify ?_) fun _ => ?_
  · rintro s w ⟨u, rfl, h⟩
    exact ⟨u, rfl, h⟩
  refine .bind (M := fun (tail : Bytes) s w =>
      (∃ u, s = hashed p bytes (popReceiving u) ∧ Took c e t w₀ at_ p bytes u w) ∧
        tail.length = min (t.sink.writeLength bytes.length) c.pageSize - bytes.length)
    (.ask hstable free ?_) fun tail => ?_
  · rintro s w tail w' h ⟨hlen, rfl⟩
    exact ⟨h, hlen⟩
  refine Pipe.orFail_spec (Pipe.submit_spec ?_ free ?_ ?_)
  · exact fun s w w' h hd => ⟨hstable s w w' h.1 hd, h.2⟩
  · rintro s w _ ⟨⟨u, rfl, h⟩, -⟩
    exact h.held.covered
  · rintro s w ⟨⟨u, rfl, h⟩, hlen⟩
    exact h.written (he _ _ _ (h.inv.held.honest _ (mem_of_getElem? h.ended))) hlen

theorem storeReceived_spec {left : ℕ} : Spec c e (Inv c e t w₀ at_) (storeReceived c t left)
      fun _ s w => Inv c e t w₀ at_ s w ∧ s.receiving.length ≤ left := by
  refine Pipe.drainWith_spec inv_stable (fun _ => free) ?_ ?_ fun p bytes => keep_spec he
  · intro s w p rest work bytes h hq hended
    have hwork := h.asked p (by rw [hq]; exact mem_cons_self)
    rw [works_getElem? hended] at hwork
    cases hwork
    exact ⟨s, rfl, h, ⟨rest, hq⟩, hended⟩
  · exact fun s w p rest work h hq hended => h.held.covered.drop hended (mem_of_pop_left hq)

omit he in
theorem awaitWrites_spec {left posted : ℕ} :
    Spec c e (fun s w => Inv c e t w₀ at_ s w ∧ s.receiving.length ≤ posted) (awaitWrites left)
      fun _ s w => (Inv c e t w₀ at_ s w ∧ s.receiving.length ≤ posted) ∧
      s.writing.length ≤ left := by
  refine Pipe.drainTo_spec ?_ (fun _ => free) ?_ ?_
  · exact fun s w w' h hd => ⟨inv_stable s w w' h.1 hd, h.2⟩
  · exact fun s w id rest work bytes h hq hended => ⟨h.1.pop_writing hq hended, h.2⟩
  · exact fun s w id rest work h hq hended => h.1.held.covered.drop hended (mem_of_pop_right hq)

/-- Both queues are drained first. -/
theorem drained_spec {m : Pipe π (Message ν δ) (Note δ) Receive Unit}
    {Q : Unit → Receive → _ → Prop}
    (hm : Spec c e (fun s w => Inv c e t w₀ at_ s w ∧ s.receiving = [] ∧ s.writing = []) m Q) :
    Spec c e (Inv c e t w₀ at_) (do
        storeReceived c t 0
        awaitWrites 0
        m) Q := by
  refine .bind (storeReceived_spec he) fun _ => .bind awaitWrites_spec fun _ =>
    hm.pre fun s w h => ?_
  exact ⟨h.1.1, length_eq_zero_iff.mp (Nat.le_zero.mp h.1.2),
    length_eq_zero_iff.mp (Nat.le_zero.mp h.2)⟩

/-- Room is made, and a receive is posted. -/
theorem makeRoom_spec {f : Fault} {m : Pipe π (Message ν δ) (Note δ) Receive Unit}
    {Q : Unit → Receive → _ → Prop} (hm : Spec c e (Inv c e t w₀ at_) m Q) :
    Spec c e (Inv c e t w₀ at_) (do
        storeReceived c t (c.recvWindow - 1)
        awaitWrites c.writeWindow
        Pipe.orFail (Pipe.acquire held) f
        m) Q := by
  refine .bind (storeReceived_spec he) fun _ => .bind awaitWrites_spec fun _ => ?_
  refine .bind (M := fun _ => Inv c e t w₀ at_) ?_ fun _ => hm
  exact (Pipe.acquire_spec inv_stable free fun _ _ h => h.held.covered).pre fun _ _ h => h.1.1

theorem applyLiteral_spec (hdirect : t.direct = false) :
    Spec c e (Inv c e t w₀ at_) (applyLiteral c t offset length) fun _ => Inv c e t w₀ at_ := by
  rw [applyLiteral]
  refine .ite (fun _ => .fail fun _ _ h => h.held.covered) fun _ =>
    makeRoom_spec he (post_spec id (.inl ?_))
  intro hd
  rw [hdirect] at hd
  cases hd

theorem applyCopy_spec {block dst : ℕ} :
    Spec c e (Inv c e t w₀ at_) (applyCopy c t block dst) fun _ => Inv c e t w₀ at_ := by
  rw [applyCopy]
  refine drained_spec he (.readThen fun s₀ => ?_)
  refine .ite (fun _ => .fail fun _ _ h => h.2.1.held.covered) fun _ => ?_
  dsimp only
  refine .ite (fun _ => .fail fun _ _ h => h.2.1.held.covered) fun _ => ?_
  let P : Receive → Io π (Message ν δ) (Note δ) → Prop :=
    fun s w => s = s₀ ∧ Inv c e t w₀ at_ s w ∧ s.receiving = [] ∧ s.writing = []
  have hP : Stable (io e) P := fun s w w' h hd => ⟨h.1, inv_stable s w w' h.2.1 hd, h.2.2⟩
  refine .bind (M := fun (got : Option Bytes) s w =>
      (∀ b, got = some b → e.basis (block * s₀.sig.blockLength) (blockLengthAt s₀.sig block) b) ∧
        P s w)
    (.ask hP free ?_) fun got => .fact fun hgot => ?_
  · rintro s w got w' h ⟨hb, rfl⟩
    exact ⟨hb, h⟩
  cases got with
  | none => exact .fail fun _ _ h => h.2.1.held.covered
  | some bytes =>
    refine .ite (fun _ => .fail fun _ _ h => h.2.1.held.covered) fun hlen => ?_
    have hlen : bytes.length = blockLengthAt s₀.sig block := not_not.mp hlen
    have hbasis := hgot bytes rfl
    rw [← hlen] at hbasis
    let Q : Receive → Io π (Message ν δ) (Note δ) → Prop :=
      fun s w => ∃ u, s = copied block dst bytes u ∧ P u w
    have hQ : Stable (io e) Q := by
      rintro s w w' ⟨u, hs, h⟩ hd
      exact ⟨u, hs, hP u w w' h hd⟩
    refine .bind (M := fun _ => Q) (.modify fun s w h => ⟨s, rfl, h⟩) fun _ => ?_
    refine Triple.bind (M := fun _ => Inv c e t w₀ at_) (Pipe.orFail_spec (Triple.ask hQ free ?_))
      fun _ => .modify ?_
    · rintro s w done w' ⟨u, rfl, rfl, h, hreceiving, hwriting⟩ (⟨rfl, rfl⟩ | ⟨rfl, torn, -, rfl⟩)
      · exact h.copied hreceiving hwriting hbasis hlen
      · exact h.held.covered
    · exact fun s w h => { h with sound := h.sound.imp_left fun hs => ⟨hs.aligned, hs.landed⟩ }

theorem streamLoop_spec (hpage : t.direct = true → c.pageSize % directAlignment = 0)
    (fuel offset : ℕ) :
    Spec c e (Inv c e t w₀ offset) (streamLoop c t fuel offset) fun _ s w => ∃ a, t.size ≤ a ∧
    Inv c e t w₀ a s w := by
  induction fuel generalizing offset with
  | zero => exact .hang
  | succ fuel ih =>
    rw [streamLoop]
    refine .ite (fun hlt => ?_) fun hstop => .pure fun s w h => ⟨offset, Nat.le_of_not_lt hstop, h⟩
    refine makeRoom_spec he (.bind (post_spec ?_ ?_) fun _ => ih _)
    · intro hd
      rwa [hd.2, Nat.add_zero]
    · by_cases halign : t.direct = true →
        (c.streaming t.tagBase).take (t.size - offset) % directAlignment = 0 ∨
        offset + (c.streaming t.tagBase).take (t.size - offset) = t.size
      · exact .inl halign
      · obtain ⟨hdirect, hrest⟩ := Classical.not_imp.mp halign
        exact .inr (PageReceiver.doomed_of_unaligned (hpage hdirect) hlt (fun h0 => hrest (.inl h0))
          fun hend => hrest (.inr hend))

section Once

variable [DecidableEq δ]
  (honce : ∀ path bytes n, .renamed path bytes n ∈ w₀.changes → n.index < t.index)
include honce

/-- **The file is put in its place**, or nothing is. -/
theorem complete_spec {theirs : δ} (hat : t.size ≤ at_) :
    Spec c e (Inv c e t w₀ at_) (complete c t theirs) fun _ => Between e (t.index + 1) := by
  rw [complete]
  refine drained_spec he (.readThen fun s₀ => ?_)
  refine .ite (fun _ => .fail fun _ _ h => h.2.1.held.covered) fun hsum => ?_
  let P : Receive → Io π (Message ν δ) (Note δ) → Prop :=
    fun s w => s = s₀ ∧ Inv c e t w₀ at_ s w ∧ s.receiving = [] ∧ s.writing = []
  have hcovered : ∀ s w, P s w → Covered w [] := by
    rintro s w ⟨rfl, h, hreceiving, hwriting⟩
    have hcov := h.held.covered
    rwa [ids, hreceiving, hwriting] at hcov
  refine Triple.bind (M := fun _ => Between e (t.index + 1))
    (commit_spec hcovered free free ?_ ?_ ?_ ?_) fun _ => Pipe.tell_spec ?_ free ?_ ?_
  · rintro s w ⟨rfl, h, hreceiving, hwriting⟩
    exact h.good hreceiving hwriting hat (not_not.mp hsum) honce
  · rintro s w old hp -
    obtain ⟨rfl, h, hreceiving, hwriting⟩ := hp
    refine ⟨hreceiving, hwriting, hcovered s w ⟨rfl, h, hreceiving, hwriting⟩, h.held.honest, ?_,
      rfl, ?_⟩
    · exact (h.good hreceiving hwriting hat (not_not.mp hsum) honce).settled
    · intro path bytes n hn
      rcases mem_append.mp hn with hn | hn
      · rw [h.held.calm.changes] at hn
        exact Nat.lt_succ_of_lt (honce path bytes n hn)
      · cases mem_singleton.mp hn
        exact Nat.lt_succ_self _
  · exact fun s w h => own_of_covered (hcovered s w h)
  · exact fun s w h => own_of_covered (hcovered s w h)
  · exact stable_of_covered fun _ _ h => h.covered
  · exact fun s w h => { h with }
  · exact fun s w h => own_of_covered h.covered

theorem receiveStream_spec (hpage : t.direct = true → c.pageSize % directAlignment = 0) :
    Spec c e (Inv c e t w₀ 0) (receiveStream c t fuel) fun _ => Between e (t.index + 1) := by
  rw [receiveStream]
  refine .bind (streamLoop_spec he hpage fuel 0) fun _ => .exists fun a => .fact fun hat => ?_
  refine drained_spec he (.pre (P := Inv c e t w₀ a) ?_ fun _ _ h => h.1)
  refine Triple.bind (Pipe.hear_spec inv_stable free) fun m => ?_
  cases m with
  | none => exact .fail fun _ _ h => h.2.held.covered
  | some m =>
    cases m with
    | done theirs => exact (complete_spec he honce hat).pre fun _ _ h => h.2
    | _ => exact .fail fun _ _ h => h.2.held.covered

theorem receiveDelta_spec (hdirect : t.direct = false) (fuel : ℕ) :
    Spec c e (Inv c e t w₀ t.size) (receiveDelta c t fuel) fun _ => Between e (t.index + 1) := by
  induction fuel with
  | zero => exact .hang
  | succ fuel ih =>
    rw [receiveDelta]
    refine Triple.bind (Pipe.hear_spec inv_stable free) fun m => ?_
    cases m with
    | none => exact .fail fun _ _ h => h.2.held.covered
    | some m =>
      cases m with
      | literal offset length =>
        exact .bind ((applyLiteral_spec he hdirect).pre fun _ _ h => h.2) fun _ => ih
      | copy block dst => exact .bind ((applyCopy_spec he).pre fun _ _ h => h.2) fun _ => ih
      | done theirs => exact (complete_spec he honce le_rfl).pre fun _ _ h => h.2
      | _ => exact .fail fun _ _ h => h.2.held.covered

end Once

omit he

omit [DecidableEq π] in
theorem Opened.inv (h : Opened e t.index s w) (at_ : ℕ) : Inv c e t w at_ s w := by
  obtain ⟨hreceiving, hwriting, hwhole, horder, hpieces⟩ := h.fresh
  refine ⟨⟨h.covered.mono (nil_subset _), h.honest, .refl w⟩, ?_, ?_, ?_, ?_, ?_, .inl ⟨?_, ?_⟩⟩
  · exact fun id op hop => .inr (h.settled op (mem_of_getElem? hop))
  · rw [hreceiving]
    exact nofun
  · rw [hpieces]
    exact nofun
  · rw [hpieces, hreceiving, horder]
    rfl
  · rw [hwhole, hpieces]
    rfl
  · rw [hreceiving]
    exact nofun
  · rw [hwhole]
    exact fun _ _ _ => landed_new h.temp h.covered

theorem sign_spec {basis : Bool} :
    Spec c e (Opened e index) (sign c basis index) fun _ => Opened e index := by
  rw [sign]
  refine .ite (fun _ => ?_) fun _ => .pure fun _ _ h => h
  cases c.signature index with
  | none => exact .fail fun _ _ h => own_of_covered h.covered
  | some sig => exact .modify fun s w h => { h with }

theorem openTarget_spec : Spec c e
      (fun s w => Between e index s w ∧ s.whole = [] ∧ s.order = [] ∧ s.pieces = [])
      (openTarget c h index) fun _ => Opened e index := by
  let P : Receive → Io π (Message ν δ) (Note δ) → Prop :=
    fun s w => Between e index s w ∧ s.whole = [] ∧ s.order = [] ∧ s.pieces = []
  have hP : Stable (io e) P := stable_of_covered fun _ _ h => h.1.covered
  rw [openTarget]
  refine .bind (M := fun _ => P) (.ask hP free ?_) fun basis => ?_
  · rintro s w _ w' hs rfl
    exact hs
  refine .bind (M := fun _ => P) (.modify ?_) fun _ => ?_
  · rintro s w ⟨h, hrest⟩
    exact ⟨{ h with }, hrest⟩
  refine Triple.bind (M := fun _ => Opened e index)
    (Pipe.orFail_spec (Triple.ask hP (fun _ _ h => h.1.temp) ?_)) fun _ => ?_
  · rintro s w (_ | _) w' ⟨h, hrest⟩ rfl
    · exact own_of_covered h.covered
    · exact { h with fresh := ⟨h.receiving, h.writing, hrest⟩, temp := rfl }
  refine Triple.ite (fun _ => Triple.pure fun _ _ h => h) fun _ => ?_
  refine .bind (M := fun _ => Opened e index) sign_spec fun _ => .readThen fun s₀ => ?_
  refine Pipe.tell_spec ?_ free ?_ ?_
  · exact stable_of_covered fun _ _ h => h.2.covered
  · rintro s w ⟨-, h⟩
    exact { h with }
  · exact fun s w h => own_of_covered h.2.covered

theorem makeDirectory_spec :
    Spec c e (Between e index) (makeDirectory c h) fun _ => Between e index := by
  rw [makeDirectory]
  cases c.resolve h.name with
  | none => exact .fail fun _ _ h => own_of_covered h.covered
  | some path =>
    refine Pipe.orFail_keeps (fun _ _ h => own_of_covered h.covered) (Triple.ask
      (stable_of_covered fun _ _ h => h.covered) free ?_)
    rintro s w _ w' hs rfl
    exact hs

theorem makeLink_spec : Spec c e (Between e index) (makeLink c h) fun _ => Between e index := by
  rw [makeLink]
  cases c.resolve h.name with
  | none => exact .fail fun _ _ h => own_of_covered h.covered
  | some path =>
    refine .ite (fun _ => .fail fun _ _ h => own_of_covered h.covered) fun _ => ?_
    refine Pipe.orFail_keeps (fun _ _ h => own_of_covered h.covered) (Triple.ask
      (stable_of_covered fun _ _ h => h.covered) free ?_)
    rintro s w _ w' hs (⟨-, rfl⟩ | rfl)
    · exact hs
    · refine { hs with once := fun p bytes n hn => ?_ }
      rcases mem_append.mp hn with hn | hn
      · exact hs.once p bytes n hn
      · cases mem_singleton.mp hn

/-- Whatever was started is waited for. -/
theorem quiesce_spec {E : Fault → Receive → Io π (Message ν δ) (Note δ) → Prop} :
    Triple (io e) (Ok c e) (Own ids) quiesce (fun _ _ w => Covered w []) E := by
  rw [quiesce]
  refine Triple.bind (M := fun _ s w => Own ids s w ∧ s.receiving.map Posted.id = []) ?_ fun _ => ?_
  · refine (Pipe.quiesceQueue_spec own_stable (fun _ => free) ?_).conseq (fun _ _ h => h)
      (fun _ _ _ h => h) fun _ _ _ h => h.elim
    intro s w id rest work r h hq hended
    obtain ⟨p, ps, hp, rfl, -⟩ := map_eq_cons_iff.mp hq
    exact h.drop hended (mem_of_pop_left hp)
  · refine (Pipe.quiesceQueue_spec (P := fun s w => Own ids s w ∧ s.receiving.map Posted.id = []) ?_
      (fun _ => free) ?_).conseq (fun _ _ h => h) ?_ fun _ _ _ h => h.elim
    · exact fun s w w' h hd => ⟨own_stable s w w' h.1 hd, h.2⟩
    · exact fun s w id rest work r h hq hended => ⟨h.1.drop hended (mem_of_pop_right hq), h.2⟩
    · rintro _ s w ⟨⟨h, hreceiving⟩, hwriting⟩
      rwa [Own, ids, hreceiving, hwriting] at h

variable [DecidableEq δ]
include he

/-- A file is received, and nothing is left of it but what is in its place. -/
theorem receiveFile_spec :
    Spec c e (Between e index) (receiveFile c h index tagBase fuel) fun _ =>
    Between e (index + 1) := by
  rw [receiveFile]
  refine .bind (M := fun _ s w => Between e index s w ∧ s.whole = [] ∧ s.order = [] ∧ s.pieces = [])
    (.modify ?_) fun _ => ?_
  · exact fun s w h => ⟨{ h with }, rfl, rfl, rfl⟩
  cases c.resolve h.name with
  | none => exact .fail fun _ _ h => own_of_covered h.1.covered
  | some path =>
    refine .bind openTarget_spec fun _ => .now fun w₀ => ?_
    refine .given (c := ∀ path bytes n, .renamed path bytes n ∈ w₀.changes → n.index < index) ?_
      fun honce => ?_
    · rintro s w ⟨rfl, h⟩
      exact h.once
    have hinv : ∀ at_ s w, w = w₀ ∧ Opened e index s w →
        Inv c e (target c h path index tagBase) w₀ at_ s w := by
      rintro at_ s w ⟨rfl, h⟩
      exact Opened.inv h at_
    refine .ite (fun hstreamed => ?_) fun hstreamed => ?_
    · refine (receiveStream_spec he honce ?_).pre (hinv 0)
      intro hdirect
      simp only [target, Bool.and_eq_true, decide_eq_true_eq] at hdirect
      exact hdirect.1.2
    · refine (receiveDelta_spec he honce ?_ fuel).pre (hinv _)
      simp only [target, Bool.eq_false_iff.mpr hstreamed, Bool.false_and]

/-- However many files there are. -/
theorem serveLoop_spec (fuel index tagBase : ℕ) :
    Spec c e (Between e index) (serveLoop c fuel index tagBase) fun _ s w => ∃ i,
    Between e i s w := by
  induction fuel generalizing index tagBase with
  | zero => exact .hang
  | succ fuel ih =>
    rw [serveLoop]
    refine Triple.bind (Pipe.hear_spec (stable_of_covered fun _ _ h => h.covered) free)
      fun m => ?_
    cases m with
    | none => exact .fail fun _ _ h => own_of_covered h.2.covered
    | some m =>
      cases m with
      | end_ => exact .pure fun s w h => ⟨index, h.2⟩
      | fileHeader h =>
        refine .pre (P := Between e index) ?_ fun _ _ h => h.2
        refine .ite (fun _ => .bind makeDirectory_spec fun _ => ih _ _) fun _ => .ite
          (fun _ => .bind makeLink_spec fun _ => ih _ _) fun _ =>
          .bind (receiveFile_spec he) fun _ => ih _ _
      | _ => exact .fail fun _ _ h => own_of_covered h.2.covered

theorem serve_spec : Spec c e (Between e 0) (serve c fuel) fun _ => Own ids := by
  rw [serve]
  refine Triple.bind (Pipe.open_spec (P := Between e 0) (stable_of_covered fun _ _ h =>
    h.covered) free fun _ _ h => own_of_covered h.covered) fun _ =>
      (serveLoop_spec he fuel 0 0).conseq (fun _ _ h => h) ?_ fun _ _ _ h => h
  rintro _ s w ⟨i, h⟩
  exact own_of_covered h.covered

/-- **Nothing is outstanding** when `run` returns. -/
theorem run_spec :
    Triple (io e) (Ok c e) (Between e 0) (run c fuel) (fun _ _ w => Covered w []) fun _ _ w =>
    Covered w [] := by
  rw [run]
  refine .bind (M := fun _ => Own ids) (.outcome (serve_spec he)) fun r => ?_
  cases r with
  | ok _ => exact quiesce_spec
  | error f =>
    refine .bind (M := fun _ => Own ids) (.ask own_stable free ?_) fun _ =>
      .bind quiesce_spec fun _ => .fail fun _ _ h => h
    rintro s w _ w' hs rfl
    exact hs

theorem session_spec (fuel : ℕ) :
    Triple (io e) (Ok c e) (Between e 0) (session c fuel)
    (fun _ _ w => Covered w [] ∧ w.temp = none) fun _ _ w => Covered w [] ∧ w.temp = none := by
  rw [session]
  have hremove : Triple (io e) (Ok c e) (fun (_ : Receive) w => Covered w []) Pipe.remove
      (fun _ _ w => Covered w [] ∧ w.temp = none) fun _ _ w => Covered w [] ∧ w.temp = none := by
    refine .ask (stable_of_covered fun _ _ h => h) free ?_
    rintro s w _ w' hs rfl
    exact ⟨hs, rfl⟩
  refine .bind (M := fun _ _ w => Covered w []) (.outcome (run_spec he)) fun r => ?_
  cases r with
  | ok _ => exact hremove
  | error f => exact .bind hremove fun _ => .fail fun _ _ h => h

end Invariant

/-! ### Whole sessions -/

section Replaced

variable {π ν δ : Type} [DecidableEq π]

/-- Whose content a change is about. -/
def Change.path {γ : Type} : Change π γ → π
  | .renamed path _ _ => path
  | .unlinked path => path

/-- What a change makes of what is found. -/
def Change.apply {γ : Type} (files : π → Option Bytes) : Change π γ → π → Option Bytes
  | .renamed path bytes _ => Function.update files path (some bytes)
  | .unlinked path => Function.update files path none

/-- What all changes make of it, in their order. -/
def replay {γ : Type} (files : π → Option Bytes) (changes : List (Change π γ)) : π → Option Bytes :=
  changes.foldl Change.apply files

theorem replay_snoc {γ : Type} (files : π → Option Bytes) (changes : List (Change π γ))
    (change : Change π γ) :
    replay files (changes ++ [change]) = Change.apply (replay files changes) change :=
  foldl_concat _ _ _ _

/-- A path that no change is about keeps its content. -/
theorem replay_of_ne {γ : Type} {files : π → Option Bytes} {changes : List (Change π γ)} {path : π}
    (h : ∀ change ∈ changes, Change.path change ≠ path) :
    replay files changes path = files path := by
  induction changes generalizing files with
  | nil => rfl
  | cons change changes ih =>
    have hne := h change mem_cons_self
    rw [replay, foldl_cons]
    refine (ih fun x hx => h x (mem_cons_of_mem _ hx)).trans ?_
    cases change with
    | renamed p bytes note | unlinked p => exact update_of_ne (.symm hne) _ _

/-- Which files were put in their places. -/
def indexes (changes : List (Change π (Note δ))) : List ℕ :=
  changes.filterMap fun
    | .renamed _ _ n => some n.index
    | .unlinked _ => none

/-- What was put in its place is what was taken, and that is what the sender has. -/
structure Committed (c : Config π ν δ) (bytes : Bytes) (n : Note δ) : Prop where
  order : places n.pieces = n.order
  digest : c.sum (content n.pieces) = n.theirs
  whole : Contiguous 0 n.order n.size → bytes = content n.pieces

/-- What is found at the paths comes of renames in order, one for a file. -/
structure Replaced (c : Config π ν δ) (files : π → Option Bytes) (w : Io π (Message ν δ) (Note δ)) :
    Prop where
  history : w.files = replay files w.changes
  committed : ∀ path bytes n, .renamed path bytes n ∈ w.changes → Committed c bytes n
  once : (indexes w.changes).Pairwise (· < ·)

variable {c : Config π ν δ} {e : Env (Message ν δ)} {files : π → Option Bytes}
  {w w' : Io π (Message ν δ) (Note δ)}

section

variable (h : Replaced c files w)
include h

theorem Replaced.rename {path : π} {n : Note δ} {t : Bytes} (hgood : Good c e w n)
    (ht : w.temp = some t) : Replaced c files (w.renamed path t n) where
  history := by
    rw [Io.renamed, replay_snoc, ← h.history]
    rfl
  committed := by
    intro p bytes m hm
    rcases mem_append.mp hm with hm | hm
    · exact h.committed p bytes m hm
    · cases mem_singleton.mp hm
      refine ⟨hgood.order, hgood.digest, fun hall => ?_⟩
      exact Option.some.inj (ht.symm.trans (hgood.whole hall))
  once := by
    rw [Io.renamed, indexes, filterMap_append]
    refine pairwise_append.mpr ⟨h.once, pairwise_singleton _ _, fun i hi j hj => ?_⟩
    obtain rfl := mem_singleton.mp hj
    obtain ⟨change, hchange, hindex⟩ := mem_filterMap.mp hi
    cases change with
    | unlinked p => cases hindex
    | renamed p bytes m =>
      cases hindex
      exact hgood.once p bytes m hchange

theorem Replaced.unlink (path : π) : Replaced c files (w.unlinked path) where
  history := by
    rw [Io.unlinked, replay_snoc, ← h.history]
    rfl
  committed := by
    intro p bytes m hm
    rcases mem_append.mp hm with hm | hm
    · exact h.committed p bytes m hm
    · cases mem_singleton.mp hm
  once := by
    rw [Io.unlinked, indexes, filterMap_append]
    exact (append_nil _).symm ▸ h.once

theorem Replaced.of_eq (hfiles : w'.files = w.files) (hchanges : w'.changes = w.changes) :
    Replaced c files w' := by
  constructor
  · rw [hfiles, hchanges]
    exact h.history
  · rw [hchanges]
    exact h.committed
  · rw [hchanges]
    exact h.once

/-- Every answer keeps it, as long as renames are asked for when they are in order. -/
theorem Replaced.perform {o : Call π (Message ν δ) (Note δ)} {a : Answer o} (hok : Ok c e w o)
    (hperform : Transfer.perform e w o a w') : Replaced c files w' := by
  by_cases hrename : ∃ path n, o = .rename path n
  · obtain ⟨path, n, rfl⟩ := hrename
    obtain ⟨-, rfl⟩ | ⟨-, t, ht, rfl⟩ := hperform
    · exact h
    · exact h.rename hok ht
  by_cases hlink : ∃ path, o = .link path
  · obtain ⟨path, rfl⟩ := hlink
    obtain ⟨-, rfl⟩ | rfl := hperform
    · exact h
    · exact h.unlink path
  obtain ⟨hfiles, hchanges⟩ := files_of_perform hperform (fun path n ho => hrename ⟨path, n, ho⟩)
    fun path ho => hlink ⟨path, ho⟩
  exact h.of_eq hfiles hchanges

theorem Replaced.drift (hd : Transfer.drift e w w') : Replaced c files w' :=
  have hcalm := (Calm.refl w).drift hd
  h.of_eq hcalm.files hcalm.changes

end

/-- A sender that may say and send anything; a page has the length it is received at. -/
def anySender : Env (Message ν δ) where
  brings := fun _ length bytes => bytes.length = length

omit [DecidableEq π] in
/-- Before anything was received. -/
theorem between_start (files : π → Option Bytes) :
    Between (anySender : Env (Message ν δ)) 0 {} ({ files } : Io π (Message ν δ) (Note δ)) :=
  ⟨rfl, rfl, covered_of_ops_nil rfl, nofun, nofun, rfl, nofun⟩

/-- **A receiver replaces a destination all at once.**  At every point of every session what is
found at the paths comes of renames, one for a file, each of bytes that hash to the sender's digest
and that are all the file's bytes if its instructions leave no gap; a rename is asked for when
everything started has worked; and whatever the end, nothing is outstanding and no temporary file is
left. -/
theorem receiver_replaces_at_once [DecidableEq δ] (c : Config π ν δ) (fuel : ℕ)
    (files : π → Option Bytes) :
    (∀ p w, Prog.Reaches (io anySender) (session c fuel {}, { files }) (p, w) →
      Replaced c files w ∧ ∀ path, (∀ change ∈ w.changes, Change.path change ≠ path) →
      w.files path = files path) ∧
    (∀ path n k w, Prog.Reaches (io anySender) (session c fuel {}, { files })
      (.ask (.rename path n) k, w) → Good c anySender w n) ∧
    ∀ r s w, Prog.Reaches (io anySender) (session c fuel {}, { files }) (.ret (r, s), w) →
      Covered w [] ∧ w.temp = none := by
  have hspec := session_spec (c := c) (e := anySender) (fun _ _ _ h => h) fuel _ _
    (between_start files)
  refine ⟨fun p w hreach => ?_, fun path n k w hreach => hspec.asks hreach, fun r s w hreach => ?_⟩
  · have hreplaced : Replaced c files w := by
      refine hspec.always (I := Replaced c files) (fun _ _ h hd => h.drift hd)
        (fun _ _ _ _ h hok hperform => h.perform hok hperform) ?_ hreach
      exact ⟨rfl, nofun, .nil⟩
    refine ⟨hreplaced, fun path hpath => ?_⟩
    rw [hreplaced.history]
    exact replay_of_ne hpath
  · exact (session_spec (fun _ _ _ h => h) fuel).returns
      (R := fun _ _ w => Covered w [] ∧ w.temp = none) (fun _ => stable_of_covered fun _ _ h => h.1)
      (between_start files) hreach

instance : (anySender : Env (Message ν δ)).Checked where
  reads _ _ _ := .isTrue trivial
  brings _ length bytes := inferInstanceAs (Decidable (bytes.length = length))
  basis _ _ _ := .isTrue trivial
  hears _ := .isTrue trivial

/-- Pages of four bytes, blocks of two, and a digest that is the file itself. -/
def plainReceive : Config Unit Unit Bytes where
  pageSize := 4
  recvWindow := 1
  writeWindow := 1
  sum := id
  resolve := some
  signature := fun _ => some ⟨2, 2, 2, [⟨0, Vector.replicate 16 0⟩]⟩
  granted := false

-- a literal and a copy, and both are in their places
example : leads anySender
    [.yes, .reply (.heard (some (.fileHeader { name := (), size := 3, wantSignature := true }))),
      .yes, .yes, .yes, .reply (.heard (some (.literal 0 1))), .yes, .yes,
      .reply (.heard (some (.copy 0 1))), .ends 0 (.done [7]), .yes, .reply (.gives (some [])),
      .yes, .ends 1 (.done []), .yes, .reply (.gives (some [8, 9])), .yes,
      .reply (.heard (some (.done [7, 8, 9]))), .yes, .yes, .yes, .yes,
      .reply (.heard (some .end_)), .yes]
    (session plainReceive 5 {}) { files := fun _ => some [8, 9] }
    (fun x w => x.1 = .ok () && w.files () = some [7, 8, 9]) = true := by
  decide +kernel

end Replaced

end Receive

end Rail.Transfer
