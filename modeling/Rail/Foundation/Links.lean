import Mathlib.Data.List.Basic
import Mathlib.Data.List.Infix

/-!
# Paths through a tree with symbolic links

A directory tree gives, for the list of names that leads to a place, what is there: a directory, a
file, or a symbolic link with the text of its target.  `walk` resolves a path in it as a kernel
does: component by component, from a directory, following a link wherever it meets one, its last
component included, and giving up after a bounded number of links.

Two facts about `walk` carry everything else.

* `walk_append`: a walk along `ps ++ qs` is a walk along `ps` and then one along `qs`, from where
  the first arrived and with the links it left.  In particular every leading part of a path that
  resolves resolves too.
* `weaklyCanonical_of_missing`: where only the last component of a path does not resolve,
  the weakly canonical form is the directory before it with that component kept as it is, *also
  where it is a link*.

A path can hold a NUL, and what is handed to the kernel ends there (`Route.seen`).

`text` writes a resolved path down, and `text_covers_iff` says that comparing such texts, with the
slash in the right place, is comparing the lists of names.
-/

namespace Links

open List

/-! ## Paths as text -/

/-- What stands between two slashes. -/
abbrev Piece := { c : List Char // '/' ∉ c }

/-- The piece between two slashes that follow each other. -/
def Piece.empty : Piece := ⟨[], not_mem_nil⟩

/-- A name that a directory can hold. -/
structure Name where
  chars : List Char
  nonempty : chars ≠ []
  noSlash : '/' ∉ chars
  notHere : chars ≠ ['.']
  notUp : chars ≠ ['.', '.']
  deriving DecidableEq

/-- A component of a path, as it is resolved. -/
inductive Part where
  | here
  | up
  | named (n : Name)
  deriving DecidableEq

/-- An empty component is the end of a path with a trailing slash, and stands for the directory
before it. -/
def Piece.part (p : Piece) : Part :=
  if h : p.val = [] then .here
  else if h₁ : p.val = ['.'] then .here
  else if h₂ : p.val = ['.', '.'] then .up
  else .named ⟨p.val, h, p.property, h₁, h₂⟩

/-- Cut a text at its slashes. -/
def pieces : List Char → List Piece
  | [] => [Piece.empty]
  | c :: cs =>
    if h : c = '/' then Piece.empty :: pieces cs
    else
      match pieces cs with
      | [] => [⟨[c], by simpa using Ne.symm h⟩]
      | p :: ps => ⟨c :: p.val, by simpa using ⟨Ne.symm h, p.property⟩⟩ :: ps

/-- A path: whether it starts at the top, and its components.  An empty last component is a
trailing slash. -/
structure Route where
  absolute : Bool
  elems : List Piece
  deriving DecidableEq

namespace Route

/-- The path a text stands for.  Slashes that follow each other count once. -/
def ofText (s : List Char) : Route :=
  let all := pieces s
  let names := all.filter (· ≠ Piece.empty)
  ⟨s.head? == some '/', if names ≠ [] ∧ all.getLast? = some Piece.empty then names ++
    [Piece.empty] else names⟩

variable (r : Route)

def parts : List Part := r.elems.map Piece.part

/-- The components without the trailing slash. -/
def stem : List Piece :=
  if r.elems.getLast? = some Piece.empty then r.elems.dropLast else r.elems

/-- A relative path below another one. -/
def join (r s : Route) : Route := ⟨r.absolute, r.stem ++ s.elems⟩

/-- The path written down again. -/
def generic : List Char :=
  (if r.absolute then ['/'] else []) ++ ['/'].intercalate (r.elems.map Subtype.val)

theorem parts_eq_stem :
    r.parts = r.stem.map Piece.part ∨ r.parts = r.stem.map Piece.part ++ [.here] := by
  rw [parts, stem]
  split
  next h =>
    right
    conv_lhs => rw [← dropLast_append_getLast? _ h]
    rw [map_append]
    rfl
  · exact .inl rfl

theorem parts_join (r s : Route) : (r.join s).parts = r.stem.map Piece.part ++ s.parts := by
  rw [parts, join, map_append, parts]

/-- A text that is not empty and does not start with a slash has a component. -/
theorem parts_ofText_ne_nil {s : List Char} (hs : s ≠ []) (ha : (ofText s).absolute = false) :
    (ofText s).parts ≠ [] := by
  obtain ⟨c, cs, rfl⟩ := exists_cons_of_ne_nil hs
  have hc : c ≠ '/' := by simpa [ofText] using ha
  have hfirst : ∃ p ∈ pieces (c :: cs), p ≠ .empty := by
    rw [pieces, dif_neg hc]
    split
    · exact ⟨_, mem_singleton.mpr rfl, fun h =>
        absurd (congrArg Subtype.val h) (by simp [Piece.empty])⟩
    · exact ⟨_, mem_cons_self, fun h => absurd (congrArg Subtype.val h) (by simp [Piece.empty])⟩
  obtain ⟨p, hp, hne⟩ := hfirst
  have hmem : p ∈ (pieces (c :: cs)).filter (· ≠ .empty) :=
    mem_filter.mpr ⟨hp, decide_eq_true hne⟩
  rw [parts, Ne, map_eq_nil_iff]
  simp only [ofText]
  intro hnil
  split at hnil
  · simp at hnil
  · rw [hnil] at hmem; exact absurd hmem not_mem_nil

end Route

/-! ## Paths as the kernel sees them -/

/-- What ends a C string. -/
def nul : Char := Char.ofNat 0

/-- The piece up to its first NUL. -/
def Piece.cut (p : Piece) : Piece :=
  ⟨p.val.takeWhile (· ≠ nul), fun h => p.property (( takeWhile_prefix _).subset h)⟩

theorem Piece.part_of_nul {p : Piece} (h : nul ∈ p.val) :
    ∃ n, p.part = .named n ∧ nul ∈ n.chars := by
  have hne : ∀ s : List Char, nul ∉ s → p.val ≠ s := fun s hs heq => hs (heq ▸ h)
  rw [Piece.part, dif_neg (hne _ (by decide)), dif_neg (hne _ (by decide)),
    dif_neg (hne _ (by decide))]
  exact ⟨_, rfl, h⟩

def cutAtNul : List Piece → List Piece
  | [] => []
  | p :: ps => if nul ∈ p.val then [p.cut] else p :: cutAtNul ps

theorem cutAtNul_append {ps qs : List Piece} (h : ∀ p ∈ ps, nul ∉ p.val) :
    cutAtNul (ps ++ qs) = ps ++ cutAtNul qs := by
  induction ps with
  | nil => rfl
  | cons p ps ih =>
    rw [forall_mem_cons] at h
    rw [cons_append, cutAtNul, if_neg h.1, ih h.2, cons_append]

/-- There is no NUL, or the path ends in the first piece that has one. -/
theorem cutAtNul_cases (ps : List Piece) : cutAtNul ps = ps ∨
    ∃ before p after, ps = before ++ p :: after ∧ nul ∈ p.val ∧
    cutAtNul ps = before ++ [p.cut] := by
  induction ps with
  | nil => exact .inl rfl
  | cons p ps ih =>
    rw [cutAtNul]
    split_ifs with hp
    · exact .inr ⟨[], p, ps, rfl, hp, rfl⟩
    · rcases ih with heq | ⟨before, q, after, rfl, hq, heq⟩
      · exact .inl (by rw [heq])
      · exact .inr ⟨p :: before, q, after, rfl, hq, by rw [heq]; rfl⟩

/-- The path up to its first NUL. -/
def Route.seen (r : Route) : Route := ⟨r.absolute, cutAtNul r.elems⟩

theorem Route.seen_eq {r : Route} (h : ∀ p ∈ r.elems, nul ∉ p.val) : r.seen = r := by
  have happ := @cutAtNul_append _ [] h
  rw [append_nil, cutAtNul, append_nil] at happ
  rw [seen, happ]

theorem Route.parts_seen_join {r : Route} (h : ∀ p ∈ r.elems, nul ∉ p.val) (s : Route) :
    (r.join s).seen.parts = r.stem.map Piece.part ++ s.seen.parts := by
  have hstem : ∀ p ∈ r.stem, nul ∉ p.val := by
    intro p hp
    rw [stem] at hp
    split_ifs at hp
    · exact h p (mem_of_mem_dropLast hp)
    · exact h p hp
  rw [parts, parts, seen, seen, join, cutAtNul_append hstem, map_append]

/-! ## Walks -/

inductive Node where
  | dir
  | file
  | link (target : List Char)
  deriving DecidableEq

/-- What is at each place, given by the names that lead there from the top. -/
abbrev Tree := List Name → Option Node

/-- How a walk ends: at something, at a name its directory does not have, at a component that
cannot be passed, or in too many links. -/
inductive Outcome where
  | found (p : List Name)
  | missing (dir : List Name) (n : Name)
  | failed
  | loop
  deriving DecidableEq

/-- The walk led nowhere. -/
def Outcome.stops : Outcome → Bool
  | .found _ | .missing _ _ => false
  | .failed | .loop => true

variable {t : Tree}

/-- A walk from a directory, with `follow` for what is left when it meets a link. -/
def walkWith (t : Tree) (follow : List Name → List Part → Outcome) : List Name → List Part → Outcome
  | cur, [] => .found cur
  | cur, .here :: ps => walkWith t follow cur ps
  | cur, .up :: ps => walkWith t follow cur.dropLast ps
  | cur, .named n :: ps =>
    match t (cur ++ [n]) with
    | none => if ps.isEmpty then .missing cur n else .failed
    | some .file => if ps.isEmpty then .found (cur ++ [n]) else .failed
    | some .dir => walkWith t follow (cur ++ [n]) ps
    | some (.link target) =>
      if target.isEmpty then .failed
      else
        let route := Route.ofText target
        follow (if route.absolute then [] else cur) (route.parts ++ ps)

/-- A walk that follows at most `b` links. -/
def walk (t : Tree) : ℕ → List Name → List Part → Outcome
  | 0 => walkWith t fun _ _ => .loop
  | b + 1 => walkWith t (walk t b)

/-- What a walk does at a link. -/
def follow (t : Tree) : ℕ → List Name → List Part → Outcome
  | 0 => fun _ _ => .loop
  | b + 1 => walk t b

theorem walk_eq (t : Tree) (b : ℕ) : walk t b = walkWith t (follow t b) := by
  cases b <;> rfl

@[simp] theorem walk_nil (b : ℕ) (cur : List Name) : walk t b cur [] = .found cur := by
  rw [walk_eq, walkWith]

@[simp] theorem walk_here (b : ℕ) (cur : List Name) (ps : List Part) :
    walk t b cur (.here :: ps) = walk t b cur ps := by
  rw [walk_eq, walkWith]

@[simp] theorem walk_up (b : ℕ) (cur : List Name) (ps : List Part) :
    walk t b cur (.up :: ps) = walk t b cur.dropLast ps := by
  rw [walk_eq, walkWith]

/-- Either a walk arrives somewhere from which every continuation goes on, or every continuation
is in vain. -/
def Splits (t : Tree) (go : List Name → List Part → Outcome) (cur : List Name) (ps : List Part) :
    Prop :=
  (∃ c d, go cur ps = .found d ∧ ∀ qs, qs ≠ [] → go cur (ps ++ qs) = walk t c d qs) ∨
    ∀ qs, qs ≠ [] → (go cur (ps ++ qs)).stops = true

theorem splits_walkWith (b : ℕ) (hfollow : ∀ cur ps, Splits t (follow t b) cur ps) :
    ∀ (ps : List Part) (cur : List Name), Splits t (walk t b) cur ps
  | [], cur => Or.inl ⟨b, cur, walk_nil b cur, fun qs _ => rfl⟩
  | .here :: ps, cur => by
    simpa only [Splits, cons_append, walk_here] using splits_walkWith b hfollow ps cur
  | .up :: ps, cur => by
    simpa only [Splits, cons_append, walk_up] using splits_walkWith b hfollow ps cur.dropLast
  | .named n :: ps, cur => by
    have hempty : ∀ {qs : List Part}, qs ≠ [] → (ps ++ qs).isEmpty = false := by
      intro qs hqs
      rw [isEmpty_eq_false_iff]
      exact append_ne_nil_of_right_ne_nil _ hqs
    rw [walk_eq]
    cases hnode : t (cur ++ [n]) with
    | none =>
      right
      intro qs hqs
      rw [cons_append, walkWith, hnode]
      simp only [hempty hqs]
      rfl
    | some node =>
      cases node with
      | dir =>
        have ih := splits_walkWith b hfollow ps (cur ++ [n])
        rw [walk_eq] at ih
        simpa only [Splits, cons_append, walkWith, hnode] using ih
      | file =>
        right
        intro qs hqs
        rw [cons_append, walkWith, hnode]
        simp only [hempty hqs]
        rfl
      | link target =>
        cases htarget : target.isEmpty with
        | true =>
          right
          intro qs hqs
          rw [cons_append, walkWith, hnode]
          simp only [htarget]
          rfl
        | false =>
          have ih := hfollow (if (Route.ofText target).absolute then [] else cur)
            ((Route.ofText target).parts ++ ps)
          simpa only [Splits, cons_append, walkWith, hnode, htarget, append_assoc,
            Bool.false_eq_true, if_false] using ih

/-- **A walk can be cut anywhere.** -/
theorem splits_walk : ∀ (b : ℕ) (cur : List Name) (ps : List Part), Splits t (walk t b) cur ps
  | 0, cur, ps => splits_walkWith 0 (fun _ _ => Or.inr fun _ _ => rfl) ps cur
  | b + 1, cur, ps => splits_walkWith (b + 1) (fun cur ps => splits_walk b cur ps) ps cur

variable {b : ℕ} {cur p : List Name} {n : Name} {ps : List Part}

/-- A walk that leads somewhere, cut before its last part. -/
theorem walk_cut {qs : List Part} (hqs : qs ≠ []) (h : (walk t b cur (ps ++ qs)).stops = false) :
    ∃ c d, walk t b cur ps = .found d ∧ ∀ rs,
    rs ≠ [] → walk t b cur (ps ++ rs) = walk t c d rs := by
  rcases splits_walk b cur ps with hgo | hvain
  · exact hgo
  · exact absurd ((hvain qs hqs).symm.trans h) (by simp)

/-- The last component of a walk, where it is there and is not a link. -/
theorem walk_singleton_of_plain {node : Node} (hnode : t (cur ++ [n]) = some node)
    (hplain : ∀ target, node ≠ .link target) : walk t b cur [.named n] = .found (cur ++ [n]) := by
  rw [walk_eq, walkWith, hnode]
  cases node with
  | dir => rfl
  | file => rfl
  | link target => exact absurd rfl (hplain target)

theorem walk_singleton_of_none (hnode : t (cur ++ [n]) = none) :
    walk t b cur [.named n] = .missing cur n := by
  rw [walk_eq, walkWith, hnode]
  rfl

/-! ## Looking a path up -/

/-- What is at a path, the last component taken as it is. -/
def lstat (t : Tree) (b : ℕ) (cur : List Name) (ps : List Part) : Option Node :=
  match ps.getLast? with
  | some (.named n) =>
    match walk t b cur ps.dropLast with
    | .found d => t (d ++ [n])
    | _ => none
  | _ =>
    match walk t b cur ps with
    | .found p => t p
    | _ => none

/-- The place that opening a path reaches; with `creat`, also the one where it makes a file. -/
def opens (t : Tree) (b : ℕ) (cur : List Name) (ps : List Part) (creat : Bool) :
    Option (List Name) :=
  match walk t b cur ps with
  | .found p => some p
  | .missing d n => if creat then some (d ++ [n]) else none
  | _ => none

/-! ## Canonical forms -/

/-- Components applied to a place by their text alone. -/
def lexical : List Name → List Part → List Name
  | p, [] => p
  | p, .here :: ps => lexical p ps
  | p, .up :: ps => lexical p.dropLast ps
  | p, .named n :: ps => lexical (p ++ [n]) ps

/-- The leading components that resolve, resolved, and the others by their text. -/
def leading (t : Tree) (b : ℕ) (cur : List Name) : List Part → List Part → Option (List Name)
  | done, [] =>
    match walk t b cur done with
    | .found p => some p
    | _ => none
  | done, e :: rest =>
    match walk t b cur (done ++ [e]) with
    | .found _ => leading t b cur (done ++ [e]) rest
    | .loop => none
    | _ =>
      match walk t b cur done with
      | .found p => some (lexical p (e :: rest))
      | _ => none

/-- The weakly canonical form of `ps`, of which the kernel sees `seen`; none where too many links
are in the way. -/
def weaklyCanonical (t : Tree) (b : ℕ) (cur : List Name) (seen ps : List Part) :
    Option (List Name) :=
  match walk t b cur seen with
  | .found p => some p
  | .loop => none
  | _ => leading t b cur [] ps

theorem weaklyCanonical_of_found {seen : List Part} (h : walk t b cur seen = .found p) :
    weaklyCanonical t b cur seen ps = some p := by
  rw [weaklyCanonical, h]

theorem leading_of_missing {b : ℕ} {cur d e : List Name} {x : Part} {m : Name} {tail : List Part} :
    ∀ {rest done : List Part}, walk t b cur (done ++ rest) = .found d →
      walk t b cur (done ++ rest ++ [x]) = .missing e m →
      leading t b cur done (rest ++ x :: tail) = some (lexical d (x :: tail))
  | [], done, hd, hm => by
    rw [append_nil] at hd hm
    rw [nil_append, leading, hm]
    simp only [hd]
  | r :: rest, done, hd, hm => by
    have hstops : (walk t b cur ((done ++ [r]) ++ (rest ++ [x]))).stops = false := by
      rw [← append_assoc, append_assoc done, singleton_append, hm]
      rfl
    obtain ⟨c, q, hq, -⟩ := walk_cut (by simp) hstops
    rw [cons_append, leading, hq]
    refine leading_of_missing (e := e) (m := m) ?_ ?_
    · rw [append_assoc, singleton_append, hd]
    · rw [append_assoc done, singleton_append, hm]

/-- Where a path resolves up to some component, that one and what follows it are kept by their
text. -/
theorem weaklyCanonical_of_missing {d e e' : List Name} {x : Part} {m m' : Name}
    {seen tail : List Part} (hseen : walk t b cur seen = .missing e' m')
    (hd : walk t b cur ps = .found d) (hm : walk t b cur (ps ++ [x]) = .missing e m) :
    weaklyCanonical t b cur seen (ps ++ x :: tail) = some (lexical d (x :: tail)) := by
  rw [weaklyCanonical, hseen]
  exact leading_of_missing hd hm

/-- Without a step up nothing is taken back. -/
theorem prefix_lexical {ps : List Part} (h : ∀ x ∈ ps, x ≠ .up) : p <+: lexical p ps := by
  induction ps generalizing p with
  | nil => exact prefix_rfl
  | cons x ps ih =>
    rw [forall_mem_cons] at h
    cases x with
    | here => exact ih h.2
    | up => exact absurd rfl h.1
    | named n => exact (prefix_append p [n]).trans (ih h.2)

/-! ## Comparing paths by their texts -/

/-- A resolved path written down. -/
def text (p : List Name) : List Char :=
  if p.isEmpty then ['/'] else p.flatMap fun n => '/' :: n.chars

/-- A text with a slash at its end. -/
def closed (s : List Char) : List Char := if s.getLast? = some '/' then s else s ++ ['/']

/-- The names, each with a slash after it. -/
def stretched (p : List Name) : List Char := p.flatMap fun n => n.chars ++ ['/']

theorem flatMap_append_slash (p : List Name) :
    (p.flatMap fun n => '/' :: n.chars) ++ ['/'] = '/' :: stretched p := by
  induction p with
  | nil => rfl
  | cons n p ih =>
    rw [flatMap_cons, append_assoc, ih, stretched, stretched, flatMap_cons,
      cons_append, append_assoc, singleton_append]

theorem slash_ne_getLast? (hp : p ≠ []) : (text p).getLast? ≠ some '/' := by
  intro h
  rw [text, if_neg (by simpa using hp)] at h
  obtain ⟨ns, n, rfl⟩ := eq_nil_or_concat' p |>.resolve_left hp
  rw [flatMap_append, flatMap_singleton, getLast?_append_of_ne_nil _ (cons_ne_nil _ _),
    getLast?_cons, Option.some.injEq] at h
  cases hc : n.chars.getLast? with
  | none => exact n.nonempty (getLast?_eq_none_iff.mp hc)
  | some c =>
    rw [hc, Option.getD_some] at h
    exact n.noSlash (h ▸ mem_of_getLast? hc)

theorem closed_text (p : List Name) : closed (text p) = '/' :: stretched p := by
  rcases eq_or_ne p [] with rfl | hp
  · rfl
  · rw [closed, if_neg (slash_ne_getLast? hp), text, if_neg (by simpa using hp),
      flatMap_append_slash]

/-- Two texts cut at their first slash. -/
theorem append_slash_prefix_iff {a b x y : List Char} (ha : '/' ∉ a) (hb : '/' ∉ b) :
    a ++ '/' :: x <+: b ++ '/' :: y ↔ a = b ∧ x <+: y := by
  induction a generalizing b with
  | nil =>
    cases b with
    | nil => simp
    | cons c b =>
        rw [mem_cons, not_or] at hb
        simp [hb.1]
  | cons d a ih =>
    rw [mem_cons, not_or] at ha
    cases b with
    | nil => simp [Ne.symm ha.1]
    | cons c b =>
      rw [mem_cons, not_or] at hb
      rw [cons_append, cons_append, cons_prefix_cons, ih ha.2 hb.2, List.cons.injEq, and_assoc]

theorem Name.ext_chars {m : Name} (h : n.chars = m.chars) : n = m := by
  cases n
  cases m
  subst h
  rfl

theorem stretched_prefix_iff {q : List Name} : stretched p <+: stretched q ↔ p <+: q := by
  induction p generalizing q with
  | nil => simp [stretched]
  | cons n p ih =>
    cases q with
    | nil => simp [stretched]
    | cons m q =>
      rw [stretched, stretched, flatMap_cons, flatMap_cons, append_assoc,
        append_assoc, singleton_append, singleton_append,
        append_slash_prefix_iff n.noSlash m.noSlash, cons_prefix_cons]
      exact and_congr ⟨Name.ext_chars, fun h => congrArg Name.chars h⟩ ih

/-- **Comparing texts is comparing names.**  A path is another one or below it exactly when its text
is that text, or starts with that text and a slash. -/
theorem text_covers_iff {q : List Name} :
    (text q = text p ∨ closed (text p) <+: text q) ↔ p <+: q := by
  rcases eq_or_ne q [] with rfl | hq
  · rw [closed_text, prefix_nil]
    rcases eq_or_ne p [] with rfl | hp
    · simp [stretched, text]
    · obtain ⟨n, ns, rfl⟩ := exists_cons_of_ne_nil hp
      obtain ⟨c, cs, hc⟩ := exists_cons_of_ne_nil n.nonempty
      simp [text, stretched, hc]
  · have hclosed : text q ++ ['/'] = '/' :: stretched q := by
      rw [← closed_text, closed, if_neg (slash_ne_getLast? hq)]
    have hiff : p <+: q ↔ closed (text p) <+: text q ++ ['/'] := by
      rw [hclosed, closed_text, cons_prefix_cons, stretched_prefix_iff, eq_self_iff_true, true_and]
    rw [hiff, prefix_concat_iff]
    refine or_congr ⟨fun h => ?_, fun h => ?_⟩ Iff.rfl
    · rw [← h, closed, if_neg (slash_ne_getLast? hq)]
    · rcases eq_or_ne p [] with rfl | hp
      · -- The text of the top is a slash, and `text q` is not empty.
        have hlen := congrArg List.length h
        obtain ⟨n, ns, rfl⟩ := exists_cons_of_ne_nil hq
        simp [closed, text] at hlen
      · rw [closed, if_neg (slash_ne_getLast? hp)] at h
        exact (append_cancel_right h).symm

end Links
