import Rail.Foundation.Links

/-!
# The export root and the names a peer sends

`src/fs/safe-path.cc`: `underRoot`, which every request of a peer that names a file goes through.
It refuses an empty name, an absolute one and one with a `..`, and joins the rest to the root.  A
single component that is there and is not a link is accepted as it is; everything else is accepted
where its weakly canonical form is the canonical root or below it.

The weakly canonical form resolves only what exists.  A name whose last component is a link that
leads nowhere is therefore compared by the place of the *link*, while an open that may create the
file follows the link and creates the file at the place it points to.

A name from the peer can hold a NUL.  The checks on its text see all of it, and the kernel sees it
up to the NUL: two dots and a NUL are not a parent reference to `underRoot`, but are one to `lstat`,
which finds a directory, and to the open that follows.

The theorem below shows that these are the only ways out: for every tree and every name that is
accepted, everything that an open can reach is below the root, unless the last component is a link
and what it points to is missing in a directory outside, or the name is such a parent reference.

The tree is not changed between the check and the open.  `b` is the number of links the kernel
follows, and `cwd` the directory the daemon was started in, which matters for a relative root.
-/

namespace Rail.Fs

open List Links

/-- Where a walk along a path starts. -/
def base (cwd : List Name) (r : Route) : List Name := if r.absolute then [] else cwd

variable (t : Tree)

/-- `weakly_canonical`; none where it reports an error. -/
def canonical (b : ℕ) (cwd : List Name) (r : Route) : Option (List Name) :=
  weaklyCanonical t b (base cwd r) r.seen.parts r.parts

/-- The text of a path made canonical, or of the path itself where that fails. -/
def canonicalText (b : ℕ) (cwd : List Name) (r : Route) : List Char :=
  match canonical t b cwd r with
  | some p => text p
  | none => r.generic

/-- `has_parent_path`, of a relative path. -/
def hasParentPath (r : Route) : Bool := decide (1 < r.elems.length)

/-- `symlink_status` finds something that is not a link. -/
def plain (b : ℕ) (cwd : List Name) (r : Route) : Bool :=
  match lstat t b (base cwd r) r.seen.parts with
  | some .dir | some .file => true
  | _ => false

def underRoot (b : ℕ) (cwd : List Name) (root : Route) (name : List Char) : Except String Route :=
  if name = [] then .error "refusing empty path from peer"
  else
    let relative := Route.ofText name
    if relative.absolute then
      .error ("refusing absolute path from peer: " ++ String.ofList name)
    else if relative.elems.any (·.val == ['.', '.']) then
      .error ("refusing parent reference from peer: " ++ String.ofList name)
    else
      let candidate := root.join relative
      if !hasParentPath relative && plain t b cwd candidate then .ok candidate
      else
        let rootText := canonicalText t b cwd root
        let realText := canonicalText t b cwd candidate
        if realText ≠ rootText ∧ ¬ closed rootText <+: realText then
          .error ("refusing path outside the root: " ++ String.ofList name)
        else .ok candidate

/-- The last component of the name is a link, the name resolves to nothing, and the place where a
file would be made for it is not below the root. -/
def DanglesOutside (b : ℕ) (cwd : List Name) (root : Route) (name : List Char) : Prop :=
  let candidate := root.join (Route.ofText name)
  ∃ d n target e m, candidate.seen.parts.getLast? = some (.named n) ∧
    walk t b (base cwd candidate) candidate.seen.parts.dropLast = .found d ∧
    t (d ++ [n]) = some (.link target) ∧
    walk t b (base cwd candidate) candidate.seen.parts = .missing e m ∧
    ∀ r, canonical t b cwd root = some r → ¬ r <+: e ++ [m]

/-- The name is two dots up to its NUL, and leads to a place that is not below the root. -/
def NulParent (b : ℕ) (cwd : List Name) (root : Route) (name : List Char) : Prop :=
  let candidate := root.join (Route.ofText name)
  (Route.ofText name).seen.parts = [.up] ∧
    ∃ q, walk t b (base cwd candidate) candidate.seen.parts = .found q ∧
      ∀ r, canonical t b cwd root = some r → ¬ r <+: q

/-- The kernel knows no name with a NUL: none in the tree, none in the path of the root and none in
the directories above it. -/
structure NulFree (b : ℕ) (cwd : List Name) (root : Route) : Prop where
  tree : ∀ p n, nul ∈ n.chars → t (p ++ [n]) = none
  path : ∀ e ∈ root.elems, nul ∉ e.val
  real : ∀ r, canonical t b cwd root = some r → ∀ n ∈ r, nul ∉ n.chars

variable {t : Tree} {b : ℕ} {cwd : List Name} {root c : Route} {name : List Char}

/-- What `underRoot` has made sure of when it accepts a name. -/
structure Accepted (t : Tree) (b : ℕ) (cwd : List Name) (root : Route) (name : List Char)
    (c : Route) : Prop where
  joined : c = root.join (Route.ofText name)
  parts_ne_nil : (Route.ofText name).parts ≠ []
  no_up : ∀ p ∈ (Route.ofText name).parts, p ≠ .up
  checked : ((Route.ofText name).elems.length ≤ 1 ∧ plain t b cwd c = true) ∨
    canonicalText t b cwd c = canonicalText t b cwd root ∨
      closed (canonicalText t b cwd root) <+: canonicalText t b cwd c

theorem val_of_part_eq_up {p : Piece} (h : p.part = .up) : p.val = ['.', '.'] := by
  rw [Piece.part] at h
  split at h
  · cases h
  · split at h
    · cases h
    · split at h
      next hup => exact hup
      · cases h

theorem accepted_of_underRoot (h : underRoot t b cwd root name = .ok c) :
    Accepted t b cwd root name c := by
  rw [underRoot] at h
  split at h
  · cases h
  next hne =>
    dsimp only at h
    split at h
    · cases h
    next habs =>
      split at h
      · cases h
      next hup =>
        have hparts := Route.parts_ofText_ne_nil hne (eq_false_of_ne_true habs)
        have hnoUp : ∀ p ∈ (Route.ofText name).parts, p ≠ .up := by
          intro p hp hpu
          obtain ⟨q, hq, rfl⟩ := List.mem_map.mp hp
          refine hup (List.any_eq_true.mpr ⟨q, hq, ?_⟩)
          rw [val_of_part_eq_up hpu]
          rfl
        split at h
        next hplain =>
          obtain rfl := Except.ok.inj h
          rw [Bool.and_eq_true, Bool.not_eq_true', hasParentPath, decide_eq_false_iff_not,
            Nat.not_lt] at hplain
          exact ⟨rfl, hparts, hnoUp, .inl hplain⟩
        · split at h
          · cases h
          next hcheck =>
            obtain rfl := Except.ok.inj h
            rw [not_and_or, not_not, not_not] at hcheck
            exact ⟨rfl, hparts, hnoUp, .inr hcheck⟩

section Contains

variable (ha : Accepted t b cwd root name c) (hn : NulFree t b cwd root)
include ha

theorem Accepted.seen_ne_nil : (Route.ofText name).seen.parts ≠ [] := by
  have hne := ha.parts_ne_nil
  rw [Route.parts, Ne, map_eq_nil_iff] at hne
  obtain ⟨x, xs, hx⟩ := exists_cons_of_ne_nil hne
  rw [Route.parts, Route.seen, hx, cutAtNul]
  split_ifs <;> exact cons_ne_nil _ _

include hn

theorem Accepted.seen_eq :
    c.seen.parts = root.stem.map Piece.part ++ (Route.ofText name).seen.parts := by
  rw [ha.joined, Route.parts_seen_join hn.path]

/-- Where a name leads somewhere, the root is a directory it passes. -/
theorem Accepted.passes_root (hs : (walk t b (base cwd c) c.seen.parts).stops = false) :
    ∃ k r, canonical t b cwd root = some r ∧
      walk t b (base cwd c) (root.stem.map Piece.part) = .found r ∧
      ∀ rs, rs ≠ [] → walk t b (base cwd c) (root.stem.map Piece.part ++ rs) = walk t k r rs := by
  rw [ha.seen_eq hn] at hs
  obtain ⟨k, r, hr, hrest⟩ := walk_cut ha.seen_ne_nil hs
  obtain rfl := ha.joined
  refine ⟨k, r, weaklyCanonical_of_found ?_, hr, hrest⟩
  rw [Route.seen_eq hn.path]
  rcases root.parts_eq_stem with hstem | hstem
  · rw [hstem]
    exact hr
  · rw [hstem]
    exact (hrest _ (by simp)).trans (by simp)

omit ha hn

/-- The comparison of texts, where both forms are canonical. -/
theorem prefix_of_texts {r p : List Name} (hr : canonical t b cwd root = some r)
    (hp : canonical t b cwd c = some p) (h : canonicalText t b cwd c = canonicalText t b cwd root ∨
      closed (canonicalText t b cwd root) <+: canonicalText t b cwd c) : r <+: p := by
  rw [canonicalText, canonicalText, hr, hp] at h
  exact text_covers_iff.mp h

/-- What `symlink_status` has seen. -/
theorem node_of_plain {ps : List Part} {n : Name} {d : List Name} (hplain : plain t b cwd c = true)
    (hparts : c.seen.parts = ps ++ [.named n]) (hd : walk t b (base cwd c) ps = .found d) :
    ∃ node, t (d ++ [n]) = some node ∧ ∀ target, node ≠ .link target := by
  have hlstat : lstat t b (base cwd c) c.seen.parts = t (d ++ [n]) := by
    rw [lstat, hparts, getLast?_concat, dropLast_concat]
    simp only [hd]
  rw [plain, hlstat] at hplain
  split at hplain
  next heq => exact ⟨.dir, heq, nofun⟩
  next heq => exact ⟨.file, heq, nofun⟩
  · cases hplain

include ha hn

/-- What an accepted name resolves to is below the root, unless it is a parent reference. -/
theorem Accepted.contains_found {p : List Name} (hp : walk t b (base cwd c) c.seen.parts = .found p)
    (hup : ¬ NulParent t b cwd root name) : ∃ r, canonical t b cwd root = some r ∧ r <+: p := by
  obtain ⟨k, r, hr, hroot, hrest⟩ := ha.passes_root hn (by rw [hp]; rfl)
  refine ⟨r, hr, ?_⟩
  rcases ha.checked with ⟨hlen, hplain⟩ | htext
  · -- A single component, looked at without following it.
    obtain ⟨e, he⟩ : ∃ e, (Route.ofText name).seen.parts = [e] := by
      obtain ⟨x, hx⟩ : ∃ x, (Route.ofText name).elems = [x] := by
        rw [← length_eq_one_iff]
        have hpos := length_pos_iff.mpr ha.parts_ne_nil
        rw [Route.parts, length_map] at hpos
        omega
      rw [Route.parts, Route.seen, hx, cutAtNul]
      split_ifs <;> exact ⟨_, rfl⟩
    have hparts : c.seen.parts = root.stem.map Piece.part ++ [e] := by rw [ha.seen_eq hn, he]
    have hlast : walk t k r [e] = .found p := by
      rw [← hrest _ (cons_ne_nil _ _), ← hparts, hp]
    cases e with
    | here =>
      rw [walk_here, walk_nil, Outcome.found.injEq] at hlast
      rw [hlast]
    | up =>
      by_contra hout
      refine hup ⟨he, p, ha.joined ▸ hp, fun q hq => ?_⟩
      rwa [← Option.mem_unique hr hq]
    | named n =>
      obtain ⟨node, hnode, hlink⟩ := node_of_plain hplain hparts hroot
      rw [walk_singleton_of_plain hnode hlink, Outcome.found.injEq] at hlast
      rw [← hlast]
      exact prefix_append _ _
  · exact prefix_of_texts hr (weaklyCanonical_of_found hp) htext

/-- The weakly canonical form of a name without its last component, and with it as it is written. -/
theorem Accepted.canonical_of_missing {ps : List Part} {n : Name} {k : ℕ} {d e r : List Name}
    {m : Name} (hseen : (Route.ofText name).seen.parts = ps ++ [.named n])
    (hd : walk t b (base cwd c) (root.stem.map Piece.part ++ ps) = .found d)
    (hrest : ∀ rs, rs ≠ [] →
      walk t b (base cwd c) (root.stem.map Piece.part ++ ps ++ rs) = walk t k d rs)
    (hm : walk t b (base cwd c) c.seen.parts = .missing e m)
    (hr : canonical t b cwd root = some r) :
    ∃ p, canonical t b cwd c = some p ∧ (r <+: p → r <+: d ++ [n]) := by
  have hmissing := hm
  rw [ha.seen_eq hn, hseen, ← append_assoc] at hm
  have hparts : c.parts = root.stem.map Piece.part ++ (Route.ofText name).parts := by
    rw [ha.joined, Route.parts_join]
  rcases cutAtNul_cases (Route.ofText name).elems with heq | ⟨before, q, after, helems, hq, heq⟩
  · rw [Route.parts, Route.seen, heq, ← Route.parts] at hseen
    refine ⟨d ++ [n], ?_, id⟩
    rw [canonical, hparts, hseen, ← append_assoc]
    exact weaklyCanonical_of_missing hmissing hd hm
  · -- The component with the NUL is kept by its text, and the root has no such name.
    obtain ⟨n', hn', hnul⟩ := Piece.part_of_nul hq
    have hps : before.map Piece.part = ps := by
      rw [Route.parts, Route.seen, heq, map_append] at hseen
      exact (append_inj' hseen rfl).1
    have hraw : (Route.ofText name).parts = ps ++ .named n' :: after.map Piece.part := by
      rw [Route.parts, helems, map_append, map_cons, hps, hn']
    have hgone : walk t b (base cwd c) (root.stem.map Piece.part ++ ps ++ [.named n']) =
        .missing d n' := by
      rw [hrest _ (cons_ne_nil _ _)]
      exact walk_singleton_of_none (hn.tree d n' hnul)
    have hnot : n' ∉ r := fun hmem => hn.real r hr n' hmem hnul
    refine ⟨lexical d (.named n' :: after.map Piece.part), ?_, fun hprefix => ?_⟩
    · rw [canonical, hparts, hraw, ← append_assoc]
      exact weaklyCanonical_of_missing hmissing hd hgone
    · have hlong : d ++ [n'] <+: lexical d (.named n' :: after.map Piece.part) :=
        prefix_lexical fun x hx => ha.no_up x (by rw [hraw]; simp [hx])
      rcases prefix_or_prefix_of_prefix hprefix hlong with hle | hge
      · rcases prefix_concat_iff.mp hle with rfl | hle
        · exact absurd (mem_append_right _ (mem_singleton_self n')) hnot
        · exact hle.trans (prefix_append d [n])
      · exact absurd (hge.subset (mem_append_right _ (mem_singleton_self n'))) hnot

/-- Where an accepted name resolves to nothing, the place where a file would be made for it is
below the root, unless its last component is a link. -/
theorem Accepted.contains_missing {e : List Name} {m : Name}
    (hm : walk t b (base cwd c) c.seen.parts = .missing e m)
    (hd : ¬ DanglesOutside t b cwd root name) :
    ∃ r, canonical t b cwd root = some r ∧ r <+: e ++ [m] := by
  have hstops : (walk t b (base cwd c) c.seen.parts).stops = false := by rw [hm]; rfl
  obtain ⟨-, r, hr, -, -⟩ := ha.passes_root hn hstops
  refine ⟨r, hr, ?_⟩
  obtain ⟨ps, l, hl⟩ := (eq_nil_or_concat' _).resolve_left ha.seen_ne_nil
  have hparts : c.seen.parts = (root.stem.map Piece.part ++ ps) ++ [l] := by
    rw [ha.seen_eq hn, hl, append_assoc]
  rw [hparts] at hstops
  obtain ⟨k, d, hdir, hrest⟩ := walk_cut (cons_ne_nil _ _) hstops
  have hlast : walk t k d [l] = .missing e m := by
    rw [← hrest _ (cons_ne_nil _ _), ← hparts, hm]
  cases l with
  | here | up => simp at hlast
  | named n =>
    obtain ⟨p, hp, hbelow⟩ := ha.canonical_of_missing hn hl hdir hrest hm hr
    have hplainless : ∀ node, t (d ++ [n]) = some node → ∃ target, node = .link target := by
      intro node hnode
      by_contra hno
      rw [walk_singleton_of_plain hnode fun target h => hno ⟨target, h⟩] at hlast
      cases hlast
    have hprefix : r <+: d ++ [n] := by
      rcases ha.checked with ⟨-, hplain⟩ | htext
      · obtain ⟨node, hnode, hlink⟩ := node_of_plain hplain hparts hdir
        obtain ⟨target, rfl⟩ := hplainless node hnode
        exact absurd rfl (hlink target)
      · exact hbelow (prefix_of_texts hr hp htext)
    cases hnode : t (d ++ [n]) with
    | none =>
      rw [walk_singleton_of_none hnode, Outcome.missing.injEq] at hlast
      rw [← hlast.1, ← hlast.2]
      exact hprefix
    | some node =>
      -- The link is followed, and the check has seen only the link.
      obtain ⟨target, rfl⟩ := hplainless node hnode
      by_contra hout
      refine hd ⟨d, n, target, e, m, ?_, ?_, hnode, ?_, ?_⟩
      · rw [← ha.joined, hparts, getLast?_concat]
      · rw [← ha.joined, hparts, dropLast_concat, hdir]
      · rw [← ha.joined, hm]
      · intro q hq
        rw [← Option.mem_unique hr hq]
        exact hout

end Contains

/-- **What the export root contains.**  For every tree and every name `underRoot` accepts,
everything that opening the returned path reaches, with or without `O_CREAT`, is at the canonical
root or below it, exactly when the last component of the name is not a link that dangles outside the
root, and the name is not a parent reference that ends in a NUL. -/
theorem underRoot_contains_iff (h : underRoot t b cwd root name = .ok c)
    (hn : NulFree t b cwd root) :
    (∀ (creat : Bool) (p : List Name), opens t b (base cwd c) c.seen.parts creat = some p →
        ∃ r, canonical t b cwd root = some r ∧ r <+: p) ↔
      ¬ DanglesOutside t b cwd root name ∧ ¬ NulParent t b cwd root name := by
  have ha := accepted_of_underRoot h
  refine ⟨fun hall => ⟨?_, ?_⟩, fun hd creat p hp => ?_⟩
  · rintro ⟨d, n, target, e, m, -, -, -, hm, hout⟩
    rw [← ha.joined] at hm
    obtain ⟨r, hr, hprefix⟩ := hall true (e ++ [m]) (by rw [opens, hm]; rfl)
    exact hout r hr hprefix
  · rintro ⟨-, q, hq, hout⟩
    rw [← ha.joined] at hq
    obtain ⟨r, hr, hprefix⟩ := hall false q (by rw [opens, hq])
    exact hout r hr hprefix
  · rw [opens] at hp
    split at hp
    next q hq =>
      cases hp
      exact ha.contains_found hn hq hd.2
    next e m hm =>
      split at hp
      · cases hp
        exact ha.contains_missing hn hm hd.1
      · cases hp
    · cases hp

/-- The export `/e` with one entry, the link `l`, whose target is given. -/
def linkTree (target : List Char) : Tree := fun p =>
  if p = [] ∨ p.map Name.chars = [['e']] then some .dir
  else if p.map Name.chars = [['e'], ['l']] then some (.link target)
  else none

theorem linkTree_nulFree (target : List Char) :
    NulFree (linkTree target) 40 [] (Route.ofText ['/', 'e']) where
  tree p n hn := by
    have hnot : ∀ s : List Char, nul ∉ s → n.chars ≠ s := fun s hs heq => hs (heq ▸ hn)
    have he := hnot ['e'] (by decide)
    have hl := hnot ['l'] (by decide)
    have hlast : ((p ++ [n]).map Name.chars).getLast? = some n.chars := by simp
    rw [linkTree, if_neg fun h => ?_, if_neg fun h => ?_]
    · rw [h] at hlast
      exact hl (Option.some.inj hlast).symm
    · rw [h.resolve_left (by simp)] at hlast
      exact he (Option.some.inj hlast).symm
  path := by decide
  real r hr := by
    cases hr
    decide

/-- A link that dangles inside the export: the file is made where it points, below the root. -/
theorem underRoot_contains_iff_dangling_inside :
    underRoot (linkTree ['/', 'e', '/', 'n']) 40 [] (Route.ofText ['/', 'e']) ['l'] =
        .ok (Route.ofText ['/', 'e', '/', 'l']) ∧
      ∀ (creat : Bool) (p : List Name),
        opens (linkTree ['/', 'e', '/', 'n']) 40 [] (Route.ofText ['/', 'e', '/', 'l']).seen.parts
            creat = some p →
          ∃ r, canonical (linkTree ['/', 'e', '/', 'n']) 40 [] (Route.ofText ['/', 'e']) = some r ∧
            r <+: p := by
  have hok : underRoot (linkTree ['/', 'e', '/', 'n']) 40 [] (.ofText ['/', 'e']) ['l'] =
      .ok (.ofText ['/', 'e', '/', 'l']) := by decide
  refine ⟨hok, (underRoot_contains_iff hok (linkTree_nulFree _)).mpr ⟨?_, ?_⟩⟩
  · rintro ⟨d, n, target, e, m, -, -, -, hm, hout⟩
    obtain ⟨rfl, rfl⟩ := Outcome.missing.inj hm
    exact hout _ rfl (by decide)
  · rintro ⟨hup, -⟩
    exact absurd hup (by decide)

/-- **A dangling link leads out of the export, and so do two dots and a NUL.**  The link `l` points
to `/o`, which does not exist.  The name `l` is accepted, and opening it with `O_CREAT` makes `/o`,
outside the root `/e`.  Two dots and a NUL are accepted, and open the directory above `/e`. -/
theorem dangling_link_escapes :
    (¬ ∀ (t : Tree) (b : ℕ) (cwd : List Name) (root c : Route) (name : List Char),
        underRoot t b cwd root name = .ok c → nul ∉ name →
        ∀ (creat : Bool) (p : List Name), opens t b (base cwd c) c.seen.parts creat = some p →
          ∃ r, canonical t b cwd root = some r ∧ r <+: p) ∧
    underRoot (linkTree []) 40 [] (.ofText ['/', 'e']) ['.', '.', nul] =
        .ok (.ofText ['/', 'e', '/', '.', '.', nul]) ∧
      opens (linkTree []) 40 [] (Route.ofText ['/', 'e', '/', '.', '.', nul]).seen.parts false =
        some [] ∧
      (canonical (linkTree []) 40 [] (.ofText ['/', 'e'])).map (·.map Name.chars) =
      some [['e']] := by
  refine ⟨fun hall => ?_, ?_⟩
  · have hok : underRoot (linkTree ['/', 'o']) 40 [] (.ofText ['/', 'e']) ['l'] =
        .ok (.ofText ['/', 'e', '/', 'l']) := by decide
    obtain ⟨r, hr, hprefix⟩ := hall _ _ _ _ _ _ hok (by decide) true _ rfl
    cases hr
    exact absurd hprefix (by decide)
  · exact ⟨by decide, by decide, by decide⟩

end Rail.Fs
