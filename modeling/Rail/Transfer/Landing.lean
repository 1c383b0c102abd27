import Rail.Transfer.Io

/-!
# Bytes on their way to a file

A receiver hashes bytes in the order it takes them and writes them behind its back: a write ends
later, and a failed one may have spoilt its range.  `Landed size whole writes w` says how far the
temporary file is: every byte hashed is in its place unless a write that is still waited for covers
it, and no write that has not ended would put anything else below `size`.  Direct writes are padded;
the padding lies at `size` or above, where `truncate` cuts it off.

* `Landed.drift`: the end of any operation, good or bad, keeps it.
* `Landed.write`, `Landed.reap`, `Landed.put`: a write is started, is known to have worked, or is
  made at once.
* `Landed.truncated`: with nothing left to wait for, the file cut to `size` is what was hashed.
-/

namespace Rail.Transfer

open List ByteFile Coroutine

variable {π μ γ : Type} {e : Env μ} {w w' : Io π μ γ}

/-- A write that is not known to have worked covers the position. -/
def Unwritten (w : Io π μ γ) (id i : ℕ) : Prop :=
  ∃ offset bytes o, w.ops[id]? = some ⟨.write offset bytes, o⟩ ∧ (∀ b, o ≠ some (.done b)) ∧
    offset ≤ i ∧ i < offset + bytes.length

/-- How far the temporary file is. -/
structure Landed (size : ℕ) (whole : Bytes) (writes : List ℕ) (w : Io π μ γ) : Prop where
  short : whole.length ≤ size
  cells : ∃ t, w.temp = some t ∧
    ∀ i < whole.length, cellAt t i = cellAt whole i ∨ ∃ id ∈ writes, Unwritten w id i
  within : ∀ id offset bytes, w.ops[id]? = some ⟨.write offset bytes, none⟩ → id ∈ writes ∧
    ∀ i < bytes.length, offset + i < size → offset + i < whole.length ∧
    cellAt bytes i = cellAt whole (offset + i)

variable {size : ℕ} {whole : Bytes} {writes : List ℕ}

/-- A new file, before anything has been started for it. -/
theorem landed_new (htemp : w.temp = some []) (hdone : Covered w []) : Landed size [] writes w where
  short := Nat.zero_le _
  cells := ⟨[], htemp, fun i hi => absurd hi (Nat.not_lt_zero i)⟩
  within := fun id _ _ hid => absurd (hdone id ⟨_, hid⟩) not_mem_nil

variable {id : ℕ} {work : Work} {r : Outcome}

/-- What has not ended now had not ended before. -/
theorem pending_set {j : ℕ} {k : Work} (hops : w'.ops = w.ops.set id ⟨work, some r⟩)
    (hj : w'.ops[j]? = some ⟨k, none⟩) : w.ops[j]? = some ⟨k, none⟩ := by
  rw [hops, getElem?_set] at hj
  split_ifs at hj
  · cases hj
  · exact hj

/-- What is to be written outside the range of an operation is so when it has ended. -/
theorem exists_unwritten_set {i : ℕ} (hid : w.ops[id]? = some ⟨work, none⟩)
    (hops : w'.ops = w.ops.set id ⟨work, some r⟩)
    (hout : ∀ offset bytes, work = .write offset bytes → ¬ (offset ≤ i ∧ i < offset + bytes.length))
    (h : ∃ j ∈ writes, Unwritten w j i) : ∃ j ∈ writes, Unwritten w' j i := by
  obtain ⟨j, hj, offset, bytes, o, hop, ho, hi⟩ := h
  have hne : id ≠ j := by
    rintro rfl
    rw [hid] at hop
    cases hop
    exact hout offset bytes rfl hi
  refine ⟨j, hj, offset, bytes, o, ?_, ho, hi⟩
  rw [hops, getElem?_set_ne hne]
  exact hop

namespace Landed

/-- The end of something that is not a write. -/
theorem ends_other (h : Landed size whole writes w) (hid : w.ops[id]? = some ⟨work, none⟩)
    (hwork : ∀ offset bytes, work ≠ .write offset bytes)
    (hops : w'.ops = w.ops.set id ⟨work, some r⟩) (htemp : w'.temp = w.temp) :
    Landed size whole writes w' where
  short := h.short
  cells := by
    obtain ⟨t, ht, hcells⟩ := h.cells
    exact ⟨t, htemp.trans ht, fun i hi => (hcells i hi).imp_right
      (exists_unwritten_set hid hops fun offset bytes hw => absurd hw (hwork offset bytes))⟩
  within := fun j offset bytes hj => h.within j offset bytes (pending_set hops hj)

variable {bytes : Bytes}

section

variable (h : Landed size whole writes w)
include h

/-- The end of a write that worked. -/
theorem ends_write {offset : ℕ} (hid : w.ops[id]? = some ⟨.write offset bytes, none⟩)
    (hops : w'.ops = w.ops.set id ⟨.write offset bytes, some (.done [])⟩)
    (htemp : w'.temp = w.temp.map fun t => pwrite t offset bytes) :
    Landed size whole writes w' where
  short := h.short
  cells := by
    obtain ⟨t, ht, hcells⟩ := h.cells
    refine ⟨pwrite t offset bytes, by rw [htemp, ht]; rfl, fun i hi => ?_⟩
    have hshort := h.short
    rw [cellAt_pwrite]
    by_cases hin : offset ≤ i ∧ i < offset + bytes.length
    · -- the write puts what was hashed
      have hright := ((h.within id offset bytes hid).2 (i - offset) (by omega) (by omega)).2
      rw [if_pos hin, hright, show offset + (i - offset) = i by omega]
      exact .inl rfl
    · rw [if_neg hin]
      refine (hcells i hi).imp_right (exists_unwritten_set hid hops ?_)
      rintro _ _ ⟨⟩
      exact hin
  within := fun j offset' bytes' hj => h.within j offset' bytes' (pending_set hops hj)

/-- The end of a write that failed. -/
theorem ends_failed {offset : ℕ} {torn : Bytes}
    (hid : w.ops[id]? = some ⟨.write offset bytes, none⟩) (htorn : torn.length ≤ bytes.length)
    (hops : w'.ops = w.ops.set id ⟨.write offset bytes, some .failed⟩)
    (htemp : w'.temp = w.temp.map fun t => pwrite t offset torn) : Landed size whole writes w' where
  short := h.short
  cells := by
    obtain ⟨t, ht, hcells⟩ := h.cells
    refine ⟨pwrite t offset torn, by rw [htemp, ht]; rfl, fun i hi => ?_⟩
    rw [cellAt_pwrite]
    by_cases hin : offset ≤ i ∧ i < offset + bytes.length
    · -- it counts as not written, however much of it was
      refine .inr ⟨id, (h.within id offset bytes hid).1, offset, bytes, some .failed, ?_,
        fun b hb => (by cases hb), hin⟩
      rw [hops, getElem?_set_self (List.getElem?_eq_some_iff.mp hid).1]
    · rw [if_neg (by omega)]
      refine (hcells i hi).imp_right (exists_unwritten_set hid hops ?_)
      rintro _ _ ⟨⟩
      exact hin
  within := fun j offset' bytes' hj => h.within j offset' bytes' (pending_set hops hj)

/-- **The end of an operation**, whichever it is and however it ends. -/
theorem drift (hd : Transfer.drift e w w') : Landed size whole writes w' := by
  obtain ⟨id, work, r, hid, hends⟩ := hd
  have hops := hends.ops_eq
  cases hends with
  | write => exact h.ends_write hid hops rfl
  | failedWrite htorn => exact h.ends_failed hid htorn hops rfl
  | read | recv | send | failedRead | failedRecv | failedSend =>
    exact h.ends_other hid (fun _ _ hw => by cases hw) hops rfl

end

theorem getElem?_begin_of_some {op : Operation} (h : w.ops[id]? = some op) :
    (w.begin_ work).ops[id]? = some op := by
  rw [Io.begin_, getElem?_append_left (List.getElem?_eq_some_iff.mp h).1]
  exact h

theorem getElem?_begin_self (work : Work) :
    (w.begin_ work).ops[w.ops.length]? = some ⟨work, none⟩ := by
  rw [Io.begin_, getElem?_append_right le_rfl, Nat.sub_self]
  rfl

theorem getElem?_of_begin {op : Operation} (h : (w.begin_ work).ops[id]? = some op) :
    w.ops[id]? = some op ∨ (id = w.ops.length ∧ op = ⟨work, none⟩) := by
  rw [Io.begin_, getElem?_append] at h
  split_ifs at h with hlt
  · exact .inl h
  · obtain ⟨hz, hop⟩ := List.getElem?_eq_some_iff.mp h
    rw [length_singleton] at hz
    refine .inr ⟨by omega, ?_⟩
    rw [← hop, getElem_singleton]

theorem unwritten_begin {i : ℕ} (h : Unwritten w id i) : Unwritten (w.begin_ work) id i := by
  obtain ⟨offset, bytes, o, hid, ho, hi⟩ := h
  exact ⟨offset, bytes, o, getElem?_begin_of_some hid, ho, hi⟩

/-- The start of something that is not a write. -/
theorem begin_ (h : Landed size whole writes w)
    (hwork : ∀ offset bytes, work ≠ .write offset bytes) :
    Landed size whole writes (w.begin_ work) where
  short := h.short
  cells := by
    obtain ⟨t, ht, hcells⟩ := h.cells
    refine ⟨t, ht, fun i hi => (hcells i hi).imp_right ?_⟩
    rintro ⟨j, hj, hun⟩
    exact ⟨j, hj, unwritten_begin hun⟩
  within := by
    intro j offset bytes hj
    rcases getElem?_of_begin hj with hj | ⟨-, heq⟩
    · exact h.within j offset bytes hj
    · cases heq
      exact absurd rfl (hwork offset bytes)

/-- **A write of the next bytes is started**, padded at most past the end of the file. -/
theorem write (h : Landed size whole writes w) {tail : Bytes}
    (hfits : whole.length + bytes.length ≤ size)
    (htail : tail = [] ∨ whole.length + bytes.length = size) :
    Landed size (whole ++ bytes) (writes ++ [w.ops.length])
    (w.begin_ (.write whole.length (bytes ++ tail))) where
  short := by
    rw [length_append]
    exact hfits
  cells := by
    obtain ⟨t, ht, hcells⟩ := h.cells
    refine ⟨t, ht, fun i hi => ?_⟩
    rw [length_append] at hi
    by_cases hold : i < whole.length
    · rw [cellAt_append_left hold]
      refine (hcells i hold).imp_right ?_
      rintro ⟨j, hj, hun⟩
      exact ⟨j, mem_append_left _ hj, unwritten_begin hun⟩
    · refine .inr ⟨w.ops.length, mem_append_right _ mem_cons_self, whole.length,
        bytes ++ tail, none, getElem?_begin_self _, fun b hb => (by cases hb), by omega, ?_⟩
      rw [length_append]
      omega
  within := by
    intro j offset bytes' hj
    rcases getElem?_of_begin hj with hj | ⟨rfl, heq⟩
    · obtain ⟨hmem, hin⟩ := h.within j offset bytes' hj
      refine ⟨mem_append_left _ hmem, fun i hi hlt => ?_⟩
      obtain ⟨hshort, hcell⟩ := hin i hi hlt
      rw [length_append, cellAt_append_left hshort]
      exact ⟨by omega, hcell⟩
    · cases heq
      refine ⟨mem_append_right _ mem_cons_self, fun i hi hlt => ?_⟩
      have hin : i < bytes.length := by
        rcases htail with rfl | hend
        · rwa [append_nil] at hi
        · omega
      rw [length_append, cellAt_append_left hin, cellAt_append_right (by omega),
        show whole.length + i - whole.length = i by omega]
      exact ⟨by omega, rfl⟩

/-- **The first write waited for has worked.** -/
theorem reap (h : Landed size whole (id :: writes) w)
    (hended : w.ops[id]? = some ⟨work, some (.done bytes)⟩) : Landed size whole writes w where
  short := h.short
  cells := by
    obtain ⟨t, ht, hcells⟩ := h.cells
    refine ⟨t, ht, fun i hi => (hcells i hi).imp_right ?_⟩
    rintro ⟨j, hj, hun⟩
    refine ⟨j, (mem_cons.mp hj).resolve_left ?_, hun⟩
    rintro rfl
    obtain ⟨offset, bytes', o, hj', ho, -⟩ := hun
    rw [hended] at hj'
    cases hj'
    exact ho bytes rfl
  within := by
    intro j offset bytes' hj
    obtain ⟨hmem, hin⟩ := h.within j offset bytes' hj
    refine ⟨(mem_cons.mp hmem).resolve_left ?_, hin⟩
    rintro rfl
    rw [hended] at hj
    cases hj

/-- The next bytes are written at once, with no write on its way. -/
theorem put (h : Landed size whole [] w) (hfits : whole.length + bytes.length ≤ size) :
    Landed size (whole ++ bytes) [] (w.land whole.length bytes) where
  short := by
    rw [length_append]
    exact hfits
  cells := by
    obtain ⟨t, ht, hcells⟩ := h.cells
    refine ⟨pwrite t whole.length bytes, by rw [Io.land, ht]; rfl, fun i hi => ?_⟩
    rw [length_append] at hi
    rw [cellAt_pwrite]
    by_cases hold : i < whole.length
    · rw [if_neg (by omega), cellAt_append_left hold]
      refine (hcells i hold).imp_right ?_
      rintro ⟨j, hj, -⟩
      exact absurd hj not_mem_nil
    · rw [if_pos ⟨by omega, by omega⟩, cellAt_append_right (by omega)]
      exact .inl rfl
  within := fun j offset bytes' hj => absurd (h.within j offset bytes' hj).1 not_mem_nil

/-- **With nothing left to wait for, the file cut to its size is what was hashed.** -/
theorem truncated (h : Landed size whole [] w) (hfull : whole.length = size) :
    ∃ t, w.temp = some t ∧ truncate t size = whole := by
  obtain ⟨t, ht, hcells⟩ := h.cells
  refine ⟨t, ht, ext_cellAt ?_ fun i hi => ?_⟩
  · rw [length_truncate, hfull]
  · rw [length_truncate] at hi
    rw [cellAt_truncate, if_pos hi]
    refine (hcells i (by omega)).resolve_right ?_
    rintro ⟨j, hj, -⟩
    exact absurd hj not_mem_nil

end Landed

/-! ## Putting the file in its place -/

/-- The temporary file cut to its size. -/
def Io.trimmed (w : Io π μ γ) (size : ℕ) : Io π μ γ :=
  { w with temp := w.temp.map fun t => truncate t size }

/-- `FileWriter::commit`. -/
def commit {σ : Type} (path : π) (note : γ) (size : ℕ) : Pipe π μ γ σ Unit := do
  Pipe.orFail (Pipe.truncate size) .commit
  Pipe.orFail Pipe.attributes .commit
  Pipe.orFail (Pipe.rename path note) .commit

theorem commit_spec [DecidableEq π] {σ : Type} {ok : Io π μ γ → Call π μ γ → Prop}
    {P : σ → Io π μ γ → Prop} {Q : Unit → σ → Io π μ γ → Prop} {E : Fault → σ → Io π μ γ → Prop}
    {path : π} {note : γ} (hcovered : ∀ s w, P s w → Covered w [])
    (htruncate : ∀ s w, P s w → ok w (.truncate size))
    (hattributes : ∀ s w, P s w → ok (w.trimmed size) .attributes)
    (hrename : ∀ s w, P s w → ok (w.trimmed size) (.rename path note))
    (h : ∀ s w t, P s w → w.temp = some t → Q () s (w.renamed path (truncate t size) note))
    (hE : ∀ s w, P s w → E .commit s w) (hE' : ∀ s w, P s w → E .commit s (w.trimmed size)) :
    Triple (io e) ok P (commit path note size) Q E := by
  let T : σ → Io π μ γ → Prop := fun s w => ∃ v, P s v ∧ w = v.trimmed size
  have hT : Stable (io e) T := by
    refine stable_of_covered ?_
    rintro s w ⟨v, hv, rfl⟩
    exact hcovered s v hv
  have hfail : ∀ s w, T s w → E .commit s w := by
    rintro s w ⟨v, hv, rfl⟩
    exact hE' s v hv
  refine Triple.bind (M := fun _ => T)
    (Pipe.orFail_spec (Triple.ask (stable_of_covered hcovered) htruncate ?_)) fun _ =>
    Triple.bind (M := fun _ => T) (Pipe.orFail_spec (Triple.ask hT ?_ ?_)) fun _ =>
      Pipe.orFail_spec (Triple.ask hT ?_ ?_)
  · rintro s w (_ | _) w' hs rfl
    · exact hE _ _ hs
    · exact ⟨w, hs, rfl⟩
  · rintro s w ⟨v, hv, rfl⟩
    exact hattributes s v hv
  · rintro s w (_ | _) w' hs rfl
    · exact hfail _ _ hs
    · exact hs
  · rintro s w ⟨v, hv, rfl⟩
    exact hrename s v hv
  · rintro s w done w' ⟨v, hv, rfl⟩ (⟨rfl, rfl⟩ | ⟨rfl, t, ht, rfl⟩)
    · exact hE' s v hv
    · obtain ⟨t', ht', rfl⟩ := Option.map_eq_some_iff.mp ht
      exact h s v t' hv ht'

end Rail.Transfer
