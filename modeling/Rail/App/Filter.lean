import Mathlib.Algebra.BigOperators.Ring.List
import Mathlib.Algebra.GroupWithZero.Nat
import Mathlib.Computability.Language

/-!
# Filter rules

`globMatch` and the rules that use it, of `src/app/filter.cc`.

The matcher goes along the text of the pattern, and at a star tries every place to go on from.  What
a pattern means is said apart from it: the pattern is read into elements, each stands for some
texts, and the pattern for those put together from theirs.

A class is to take one character other than a slash, as `?` does, but `matchClass` has no such
check.  So the matcher accepts the language in which classes take slashes too, which is another one
as soon as some class does, unless the pattern has no texts at all.
-/

namespace Rail.App

open List Option

/-- A character, as a byte. -/
def ch (c : Char) : UInt8 := c.toNat.toUInt8

/-- An item of a class. -/
inductive Item where
  | one (c : UInt8)
  | range (lo hi : UInt8)

/-- The item that starts with a character, and what follows it. -/
def item (x : UInt8) : List UInt8 → Item × List UInt8
  | d :: y :: p => if d = ch '-' ∧ y ≠ ch ']' then (.range x y, p) else (.one x, d :: y :: p)
  | p => (.one x, p)

theorem length_item (x : UInt8) (p : List UInt8) : (item x p).2.length < (x :: p).length := by
  rw [item.eq_def, length_cons]
  split
  · split_ifs <;> simp only [length_cons] <;> omega
  · exact Nat.lt_succ_self _

/-- The mark of a negated class, and what follows it. -/
def negation : List UInt8 → Bool × List UInt8
  | x :: p => if x = ch '!' ∨ x = ch '^' then (true, p) else (false, x :: p)
  | [] => (false, [])

section Matcher

-- `<=` of `char`, which may be signed.
variable (le : UInt8 → UInt8 → Bool)

def Item.takes (c : UInt8) : Item → Bool
  | one x => x == c
  | range lo hi => le lo c && le c hi

/-! ## What a pattern means -/

/-- The items of a class, and what follows its end; a bracket that comes first is an item. -/
def items (first : Bool) : List UInt8 → Option (List Item × List UInt8)
  | [] => none
  | x :: p =>
    if x = ch ']' ∧ first = false then some ([], p)
    else (items false (item x p).2).map fun r => ((item x p).1 :: r.1, r.2)
  termination_by p => p.length
  decreasing_by exact length_item x p

theorem length_items {first : Bool} {p : List UInt8} {r : List Item × List UInt8}
    (h : items first p = some r) : r.2.length < p.length := by
  fun_induction items first p generalizing r with
  | case1 => cases h
  | case2 => cases h; exact Nat.lt_succ_self _
  | case3 first x p _ ih =>
    obtain ⟨r', hr', rfl⟩ := map_eq_some_iff.mp h
    exact (ih hr').trans (length_item x p)

variable (p : List UInt8)

/-- Which characters a class takes, and what follows it. -/
def readClass : Option ((UInt8 → Bool) × List UInt8) :=
  (items true (negation p).2).map fun r =>
    (fun c => r.1.any (Item.takes le c) ≠ (negation p).1, r.2)

theorem length_readClass {p : List UInt8} {r : (UInt8 → Bool) × List UInt8}
    (h : readClass le p = some r) : r.2.length < p.length := by
  obtain ⟨q, hq, rfl⟩ := map_eq_some_iff.mp h
  have hle : (negation p).2.length ≤ p.length := by
    rw [negation.eq_def]
    split
    · split_ifs <;> simp
    · exact le_refl _
  exact (length_items hq).trans_le hle

/-- The pattern after a run of stars. -/
def pastStars : List UInt8 := p.dropWhile (· == ch '*')

theorem length_pastStars : (pastStars p).length ≤ p.length := (dropWhile_sublist _).length_le

inductive Element where
  /-- One character: a plain one, any but a slash, or one of a class. -/
  | one (inClass : Bool) (takes : UInt8 → Bool)
  /-- A run of characters, which crosses slashes at two stars or more. -/
  | run (crossesSlash : Bool)

def elements : List UInt8 → List Element
  | [] => []
  | x :: p =>
    if x = ch '*' then
      if p.head? = some (ch '*') then .run true :: elements (pastStars p)
      else .run false :: elements p
    else if x = ch '?' then .one false (· ≠ ch '/') :: elements p
    else if x = ch '[' then
      match _h : readClass le p with
      | none => [.one true fun _ => false]
      | some (takes, rest) => .one true takes :: elements rest
    else .one false (x = ·) :: elements p
  termination_by p => p.length
  decreasing_by
    · exact Nat.lt_succ_of_le (length_pastStars p)
    · exact Nat.lt_succ_self _
    · exact Nat.lt_succ_self _
    · exact (length_readClass le _h).trans (Nat.lt_succ_self _)
    · exact Nat.lt_succ_self _

namespace Element

/-- The texts that an element stands for; `slashes` lets classes take them. -/
def texts (slashes : Bool) : Element → Language UInt8
  | one inClass takes =>
      {w | ∃ c, takes c = true ∧ (slashes = true ∨ inClass = false ∨ c ≠ ch '/') ∧ w = [c]}
  | run crossesSlash => {w | crossesSlash = true ∨ ch '/' ∉ w}

/-- A class that takes a slash. -/
def TakesSlash : Element → Prop
  | one inClass takes => inClass = true ∧ takes (ch '/') = true
  | run _ => False

/-- A class that takes nothing, or has no end. -/
def Empty : Element → Prop
  | one _ takes => ∀ c, takes c = false
  | run _ => False

end Element

def language (slashes : Bool) (es : List Element) : Language UInt8 :=
  (es.map (Element.texts slashes)).prod

/-! ## The matcher -/

/-- The loop of `matchClass`: whether an item took the character, and what follows the class. -/
def classLoop (c : UInt8) (first matched : Bool) : List UInt8 → Option (Bool × List UInt8)
  | [] => none
  | x :: p =>
    if x = ch ']' ∧ first = false then some (matched, p)
    else classLoop c false (matched || (item x p).1.takes le c) (item x p).2
  termination_by p => p.length
  decreasing_by exact length_item x p

/-- `matchClass`, from after the bracket: what follows the class when it takes the character. -/
def matchClass (c : UInt8) (p : List UInt8) : Option (List UInt8) :=
  (classLoop le c true false (negation p).2).bind fun r =>
    if r.1 ≠ (negation p).1 then some r.2 else none

theorem classLoop_eq (c : UInt8) (first matched : Bool) (p : List UInt8) :
    classLoop le c first matched p = (items first p).map fun r =>
    (matched || r.1.any (Item.takes le c), r.2) := by
  fun_induction items first p generalizing matched with
  | case1 => simp [classLoop]
  | case2 first x p h => simp [classLoop, h.1, h.2]
  | case3 first x p h ih => simp [classLoop, h, ih, Function.comp_def, Bool.or_assoc]

theorem matchClass_eq (c : UInt8) (p : List UInt8) :
    matchClass le c p = (readClass le p).bind fun r => if r.1 c then some r.2 else none := by
  rw [matchClass, classLoop_eq, readClass]
  cases items true (negation p).2 <;> simp

/-- The body of the loop of `globMatch` other than at a star: the rest of the pattern, when the
character passes. -/
def pass (x : UInt8) (p : List UInt8) (c : UInt8) : Option (List UInt8) :=
  if x = ch '?' then if c = ch '/' then none else some p
  else if x = ch '[' then matchClass le c p
  else if x = c then some p else none

theorem length_pass {x c : UInt8} {p p' : List UInt8} (h : pass le x p c = some p') :
    p'.length < (x :: p).length := by
  rw [pass, matchClass_eq] at h
  split_ifs at h
  · cases h
    exact Nat.lt_succ_self _
  · obtain ⟨r, hr, h⟩ := bind_eq_some_iff.mp h
    obtain ⟨-, h⟩ := ite_none_right_eq_some.mp h
    cases h
    exact (length_readClass le hr).trans (Nat.lt_succ_self _)
  · cases h
    exact Nat.lt_succ_self _

/-- The loop at a star, which goes on from each place. -/
def skip (go : List UInt8 → Bool) (crossesSlash : Bool) : List UInt8 → Bool
  | [] => go []
  | c :: t =>
      go (c :: t) || (if crossesSlash = false ∧ c = ch '/' then false else skip go crossesSlash t)

def globMatch (pattern text : List UInt8) : Bool :=
  match pattern with
  | [] => text.isEmpty
  | x :: p =>
    if x = ch '*' then
      if p.head? = some (ch '*') then skip (globMatch (pastStars p)) true text else skip
        (globMatch p) false text
    else
      match text with
      | [] => false
      | c :: t =>
        match _h : pass le x p c with
        | none => false
        | some p' => globMatch p' t
  termination_by pattern.length
  decreasing_by
    · exact Nat.lt_succ_of_le (length_pastStars p)
    · exact Nat.lt_succ_self _
    · exact length_pass le _h

/-- `matchesAnywhere`, with the next place to try or not yet at it. -/
def anywhere (pattern : List UInt8) (here : Bool) : List UInt8 → Bool
  | [] => here && globMatch le pattern []
  | c :: t => here && globMatch le pattern (c :: t) || anywhere pattern (c = ch '/') t

structure Rule where
  pattern : List UInt8
  accept : Bool
  directoryOnly : Bool := false
  anchored : Bool := false

/-- Whether a rule of `FilterRules::allows` is for a path. -/
def Rule.applies (r : Rule) (relative : List UInt8) : Bool :=
  if r.anchored then globMatch le r.pattern relative else anywhere le r.pattern true relative

/-! ## What the matcher accepts -/

variable {le} {slashes : Bool} {e : Element} {es : List Element} {t : List UInt8}

theorem mem_language_cons : t ∈ language slashes (e :: es) ↔
    ∃ a ∈ e.texts slashes, ∃ b ∈ language slashes es, a ++ b = t := by
  rw [language, map_cons, prod_cons, Language.mem_mul]
  rfl

theorem skip_iff {go : List UInt8 → Bool} {crosses : Bool}
    (hgo : ∀ t, go t = true ↔ t ∈ language slashes es) :
    skip go crosses t = true ↔ t ∈ language slashes (.run crosses :: es) := by
  have hrun : ∀ w, w ∈ (Element.run crosses).texts slashes ↔ crosses = true ∨ ch '/' ∉ w :=
    fun _ => Iff.rfl
  simp only [mem_language_cons, hrun, ← hgo]
  induction t with
  | nil => simp [skip]
  | cons c t ih =>
    rw [skip, Bool.or_eq_true]
    constructor
    · rintro (h | h)
      · exact ⟨[], .inr not_mem_nil, c :: t, h, rfl⟩
      · split_ifs at h with hc
        obtain ⟨a, ha, b, hb, rfl⟩ := ih.mp h
        exact ⟨c :: a, by grind, b, hb, rfl⟩
    · rintro ⟨_ | ⟨d, a⟩, ha, b, hb, heq⟩
      · exact .inl (heq ▸ hb)
      · obtain ⟨rfl, rfl⟩ := cons.inj heq
        refine .inr ?_
        rw [if_neg (by grind)]
        exact ih.mpr ⟨a, by grind, b, hb, rfl⟩

/-- Other than at a star: the character passes, and the rest of the pattern goes on. -/
theorem globMatch_of_pass {x : UInt8} {p q : List UInt8} {inClass : Bool} {takes : UInt8 → Bool}
    (hx : x ≠ ch '*') (hpass : ∀ c, pass le x p c = if takes c then some q else none)
    (hq : ∀ c, takes c = true → ∀ t, globMatch le q t = true ↔ t ∈ language true es) :
    globMatch le (x :: p) t = true ↔ t ∈ language true (.one inClass takes :: es) := by
  rw [mem_language_cons]
  unfold globMatch
  rw [if_neg hx]
  constructor
  · intro h
    split at h
    · cases h
    · next c t =>
      split at h
      · cases h
      · next p' heq =>
        rw [hpass] at heq
        obtain ⟨hc, heq⟩ := ite_none_right_eq_some.mp heq
        cases heq
        exact ⟨[c], ⟨c, hc, .inl rfl, rfl⟩, t, (hq c hc t).mp h, rfl⟩
  · rintro ⟨_, ⟨c, hc, -, rfl⟩, b, hb, rfl⟩
    have hpass' := hpass c
    rw [if_pos hc] at hpass'
    dsimp only [singleton_append]
    split
    · next heq => exact absurd (heq.symm.trans hpass') nofun
    · next p' heq =>
      cases heq.symm.trans hpass'
      exact (hq c hc b).mpr hb

/-- **What the matcher accepts** is the language in which classes take slashes too. -/
theorem globMatch_iff (p t : List UInt8) :
    globMatch le p t = true ↔ t ∈ language true (elements le p) := by
  fun_induction elements le p generalizing t with
  | case1 =>
    unfold globMatch
    rw [List.isEmpty_iff]
    exact Iff.rfl
  | case2 p hstars ih =>
    unfold globMatch
    rw [if_pos rfl, if_pos hstars]
    exact skip_iff ih
  | case3 p hstars ih =>
    unfold globMatch
    rw [if_pos rfl, if_neg hstars]
    exact skip_iff ih
  | case4 p hx ih => exact globMatch_of_pass hx (fun c => by simp [pass]) fun _ _ => ih
  | case5 p hnone hx hx' =>
    exact globMatch_of_pass (q := []) hx (fun c => by simp [pass, hx', matchClass_eq, hnone]) nofun
  | case6 p takes rest hr hx hx' ih =>
    exact globMatch_of_pass hx (fun c => by simp [pass, hx', matchClass_eq, hr]) fun _ _ => ih
  | case7 x p h₁ h₂ h₃ ih =>
    exact globMatch_of_pass h₁ (fun c => by simp [pass, h₂, h₃]) fun _ _ => ih

theorem anywhere_iff (here : Bool) (path : List UInt8) : anywhere le p here path = true ↔
    here = true ∧ globMatch le p path = true ∨ ∃ a b, path = a ++ ch '/' :: b ∧
    globMatch le p b = true := by
  induction path generalizing here with
  | nil => simp [anywhere]
  | cons c t ih =>
    rw [anywhere, Bool.or_eq_true, Bool.and_eq_true, ih, decide_eq_true_eq]
    refine or_congr_right ⟨?_, ?_⟩
    · rintro (⟨rfl, h⟩ | ⟨a, b, rfl, h⟩)
      · exact ⟨[], t, rfl, h⟩
      · exact ⟨c :: a, b, rfl, h⟩
    · rintro ⟨_ | ⟨d, a⟩, b, heq, h⟩
      · obtain ⟨rfl, rfl⟩ := cons.inj heq
        exact .inl ⟨rfl, h⟩
      · exact .inr ⟨a, b, (cons.inj heq).2, h⟩

/-! ## Where slashes make a difference -/

/-- The length of the shortest texts. -/
def Element.width : Element → ℕ
  | one _ _ => 1
  | run _ => 0

theorem width_le (h : t ∈ language slashes es) : (es.map Element.width).sum ≤ t.length := by
  induction es generalizing t with
  | nil => exact Nat.zero_le _
  | cons e es ih =>
    obtain ⟨a, ha, b, hb, rfl⟩ := mem_language_cons.mp h
    have hrest := ih hb
    rw [map_cons, sum_cons, length_append]
    cases e with
    | one inClass takes =>
      obtain ⟨c, -, -, rfl⟩ := ha
      exact Nat.add_le_add_left hrest 1
    | run crosses => exact Nat.add_le_add (Nat.zero_le _) hrest

/-- A shortest text, with a slash if the element takes one. -/
theorem Element.exists_shortest (h : ¬ e.Empty) :
    ∃ w ∈ e.texts true, w.length = e.width ∧ (w ∈ e.texts false → ¬ e.TakesSlash) := by
  cases e with
  | run crosses => exact ⟨[], .inr not_mem_nil, rfl, fun _ => id⟩
  | one inClass takes =>
    by_cases hslash : (one inClass takes).TakesSlash
    · refine ⟨[ch '/'], ⟨_, hslash.2, .inl rfl, rfl⟩, rfl, ?_⟩
      rintro ⟨c, -, hc, heq⟩
      rw [hslash.1, (cons.inj heq).1] at hc
      simp at hc
    · obtain ⟨c, hc⟩ := not_forall.mp h
      exact ⟨[c], ⟨c, Bool.eq_true_of_not_eq_false hc, .inl rfl, rfl⟩, rfl, fun _ => hslash⟩

/-- A shortest text of a pattern can be put together in one way only. -/
theorem exists_apart (h : ∀ e ∈ es, ¬ e.Empty) : ∃ t ∈ language true es,
    t.length = (es.map Element.width).sum ∧ (t ∈ language false es → ∀ e ∈ es, ¬ e.TakesSlash) := by
  induction es with
  | nil => exact ⟨[], rfl, rfl, nofun⟩
  | cons e es ih =>
    obtain ⟨b, hb, hblen, hbapart⟩ := ih fun e he => h e (mem_cons_of_mem _ he)
    obtain ⟨a, ha, halen, haapart⟩ := e.exists_shortest (h e mem_cons_self)
    refine ⟨a ++ b, mem_language_cons.mpr ⟨a, ha, b, hb, rfl⟩, by simp [halen, hblen],
      fun hmem => ?_⟩
    obtain ⟨a', ha', b', hb', heq⟩ := mem_language_cons.mp hmem
    have hone : a' ∈ language false [e] := mem_language_cons.mpr ⟨a', ha', [], rfl, append_nil a'⟩
    have hle : e.width ≤ a'.length := width_le hone
    have hlen := congrArg length heq
    have hle' := width_le hb'
    rw [length_append, length_append] at hlen
    obtain ⟨rfl, rfl⟩ := append_inj heq (by omega)
    exact forall_mem_cons.mpr ⟨haapart ha', hbapart hb'⟩

theorem Element.texts_eq (h : ¬ e.TakesSlash ∨ e.Empty) : e.texts true = e.texts false := by
  cases e with
  | run crosses => rfl
  | one inClass takes =>
    refine Set.ext fun w => exists_congr fun c => and_congr_right fun hc => ?_
    rcases h with h | h
    · by_cases hs : c = ch '/' <;> simp_all [TakesSlash]
    · exact absurd ((h c).symm.trans hc) Bool.false_ne_true

/-- **What a pattern and an unanchored rule match.**  The matcher accepts exactly the texts of the
pattern when no class of it takes a slash, or when it has no texts because some element has none. -/
theorem globMatch_means_pattern_iff (le : UInt8 → UInt8 → Bool) (p : List UInt8) :
    ((∀ t, globMatch le p t = true ↔ t ∈ language false (elements le p)) ↔
      (∀ e ∈ elements le p, ¬ e.TakesSlash) ∨ ∃ e ∈ elements le p, e.Empty) ∧
    ∀ accept directoryOnly path, (Rule.mk p accept directoryOnly false).applies le path = true ↔
      globMatch le p path = true ∨ ∃ a b, path = a ++ ch '/' :: b ∧ globMatch le p b = true := by
  refine ⟨⟨fun h => ?_, fun h t => ?_⟩, fun _ _ path =>
    (anywhere_iff p true path).trans (by rw [and_iff_right rfl])⟩
  · refine or_iff_not_imp_right.mpr fun hfull => ?_
    have hfull' : ∀ e ∈ elements le p, ¬ e.Empty := by simpa using hfull
    obtain ⟨t, ht, -, hapart⟩ := exists_apart hfull'
    exact hapart ((h t).mp ((globMatch_iff p t).mpr ht))
  · rw [globMatch_iff, language, language]
    rcases h with h | ⟨e, he, hempty⟩
    · rw [map_congr_left fun e he => Element.texts_eq (.inl (h e he))]
    · have hzero : e.texts false = 0 := by
        cases e with
        | run _ => cases hempty
        | one _ takes =>
          exact Set.eq_empty_of_forall_notMem fun w ⟨c, hc, _⟩ => by simp [hempty c] at hc
      have hzero' := (Element.texts_eq (.inr hempty)).trans hzero
      rw [prod_eq_zero (mem_map.mpr ⟨e, he, hzero⟩), prod_eq_zero (mem_map.mpr ⟨e, he, hzero'⟩)]

/-- `[!a]` accepts a slash. -/
theorem globMatch_class_takes_slash : ¬ ∀ (le : UInt8 → UInt8 → Bool) (p t : List UInt8),
    globMatch le p t = true ↔ t ∈ language false (elements le p) := by
  intro h
  obtain ⟨takes, hslash, hclass⟩ : ∃ takes, takes (ch '/') = true ∧
      readClass (· ≤ ·) [ch '!', ch 'a', ch ']'] = some (takes, []) :=
    ⟨fun c => [Item.one (ch 'a')].any (Item.takes (· ≤ ·) c) ≠ true, by decide,
      by simp [readClass, negation, items, item, ch]⟩
  have hread : elements (· ≤ ·) (ch '[' :: [ch '!', ch 'a', ch ']']) = [.one true takes] := by
    unfold elements
    rw [if_neg (by decide), if_neg (by decide), if_pos rfl]
    split
    · next heq => exact absurd (heq.symm.trans hclass) nofun
    · next heq =>
      cases heq.symm.trans hclass
      simp [elements]
  have hmem := h (· ≤ ·) (ch '[' :: [ch '!', ch 'a', ch ']']) [ch '/']
  rw [globMatch_iff, hread] at hmem
  obtain ⟨_, ⟨c, -, hc, rfl⟩, b, -, heq⟩ := mem_language_cons.mp
    (hmem.mp (mem_language_cons.mpr ⟨_, ⟨ch '/', hslash, .inl rfl, rfl⟩, [], rfl, rfl⟩))
  rw [(cons.inj heq).1] at hc
  simp at hc

end Matcher
end Rail.App
