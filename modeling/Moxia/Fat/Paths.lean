import Moxia.Fat.Directory
import Moxia.Fat.Contents

/-!
# Paths, and the walk of `FindFile`

`FindFile` walks the elements of a path: each is looked up in the root or in the directory found
before it (`findFile_eq`). A slash behind an element belongs to that element; a second one starts
the next element, which is looked up in the root then. So the elements of a path are those of its
part before the last slash and the name behind it, which starts from the root if that part ends with
the slash of an element (`parse_append`).
-/

namespace Moxia.Fat

variable {path f name rest : List UInt8}

/-- An element of a path. -/
structure Elem where
  fromRoot : Bool
  name : List UInt8

/-- The elements of a path, and whether a slash ends the last one. -/
def parse : Nat → List UInt8 → List Elem × Bool
  | 0, _ => ([], false)
  | fuel + 1, path =>
    match nextPathElement (strip path) with
    | (name, none) => ([⟨path.head? = some slash, name⟩], false)
    | (name, some []) => ([⟨path.head? = some slash, name⟩], true)
    | (name, some (c :: nextPath)) =>
      (⟨path.head? = some slash, name⟩ :: (parse fuel (c :: nextPath)).1,
        (parse fuel (c :: nextPath)).2)

def elems (path : List UInt8) : List Elem := (parse (path.length + 1) path).1

/-- A slash ends the last element of the path. -/
def postSlash (path : List UInt8) : Bool := (parse (path.length + 1) path).2

theorem nextPathElement_of_not_mem (h : slash ∉ path) : nextPathElement path = (path, none) :=
  if_neg h

theorem nextPathElement_append_of_not_mem (h : slash ∉ path) :
    nextPathElement (path ++ slash :: f) = (path, some f) := by
  have hall : ∀ c ∈ path, decide (c ≠ slash) = true := fun c hc => by
    simp only [decide_eq_true_eq]
    rintro rfl
    exact h hc
  rw [nextPathElement, if_pos (List.mem_append_right _ List.mem_cons_self),
    List.takeWhile_append_of_pos hall,
    List.dropWhile_append_of_pos hall]
  simp

theorem nextPathElement_append (h : nextPathElement path = (name, some rest)) (f : List UInt8) :
    nextPathElement (path ++ slash :: f) = (name, some (rest ++ slash :: f)) ∧ rest.length <
      path.length := by
  have hmem : slash ∈ path := by
    by_contra hno
    rw [nextPathElement_of_not_mem hno] at h
    cases h
  obtain ⟨pre, post, rfl, hpre⟩ := List.eq_append_cons_of_mem hmem
  rw [nextPathElement_append_of_not_mem hpre] at h
  cases h
  refine ⟨?_, by rw [List.length_append, List.length_cons]; omega⟩
  rw [List.append_assoc, List.cons_append, nextPathElement_append_of_not_mem hpre]

theorem strip_of_not_mem (h : slash ∉ f) : strip f = f ∧ decide (f.head? = some slash) = false := by
  have hhead : f.head? ≠ some slash := fun hhead => h (List.mem_of_mem_head? hhead)
  exact ⟨if_neg hhead, decide_eq_false hhead⟩

theorem strip_append (h : path ≠ []) (f : List UInt8) :
    strip (path ++ slash :: f) = strip path ++ slash :: f ∧
    (path ++ slash :: f).head? = path.head? := by
  obtain ⟨c, path, rfl⟩ := List.exists_cons_of_ne_nil h
  rw [strip, strip, List.cons_append, List.head?_cons, List.head?_cons]
  split
  · exact ⟨rfl, rfl⟩
  · exact ⟨rfl, rfl⟩

theorem strip_length (path : List UInt8) : (strip path).length ≤ path.length := by
  rw [strip]
  split
  · rw [List.length_tail]
    omega
  · exact Nat.le_refl _

theorem parse_of_not_mem (h : slash ∉ f) (fuel : Nat) :
    parse (fuel + 1) f = ([⟨false, f⟩], false) := by
  obtain ⟨hstrip, hhead⟩ := strip_of_not_mem h
  rw [parse, hstrip, nextPathElement_of_not_mem h, hhead]

theorem parse_slash (h : slash ∉ f) (fuel : Nat) :
    parse (fuel + 1) (slash :: f) = ([⟨true, f⟩], false) := by
  have hstrip : strip (slash :: f) = f := if_pos rfl
  rw [parse, hstrip, nextPathElement_of_not_mem h]
  rfl

theorem parse_append (hf : slash ∉ f) (hne : f ≠ []) : ∀ {fuel fuel' path}, path ≠ [] →
    path.length < fuel →
    path.length + 1 < fuel' → parse fuel' (path ++ slash :: f) =
      ((parse fuel path).1 ++ [⟨(parse fuel path).2, f⟩], false) := by
  intro fuel
  induction fuel with
  | zero => exact fun _ h => absurd h (Nat.not_lt_zero _)
  | succ fuel ih =>
    intro fuel' path hpath hfuel hfuel'
    obtain ⟨fuel', rfl⟩ : ∃ n, fuel' = n + 2 := ⟨fuel' - 2, by omega⟩
    obtain ⟨hstrip, hhead⟩ := strip_append hpath f
    have hlen := strip_length path
    obtain ⟨c, f, rfl⟩ := List.exists_cons_of_ne_nil hne
    rw [parse, parse, hstrip, hhead]
    rcases hnext : nextPathElement (strip path) with ⟨name, _ | rest⟩
    · -- the path ends in an element
      have hno : slash ∉ strip path := by
        intro hmem
        rw [nextPathElement, if_pos hmem] at hnext
        cases hnext
      rw [nextPathElement_of_not_mem hno] at hnext
      cases hnext
      rw [nextPathElement_append_of_not_mem hno]
      dsimp only
      rw [parse_of_not_mem hf]
      rfl
    · obtain ⟨happ, hrest⟩ := nextPathElement_append hnext (c :: f)
      rw [happ]
      rcases rest with _ | ⟨c', rest⟩
      · rw [List.nil_append]
        dsimp only
        rw [parse_slash hf]
        rfl
      · rw [List.length_cons] at hrest
        have := @ih (fuel' + 1) (c' :: rest) (List.cons_ne_nil _ _)
          (by rw [List.length_cons]; omega) (by rw [List.length_cons]; omega)
        rw [List.cons_append] at this
        rw [List.cons_append]
        dsimp only
        rw [this]
        rfl

namespace Volume

variable {v : Volume} {dir : Nat}

def startDir (v : Volume) (e : Elem) (dir : Nat) : Nat :=
  if e.fromRoot ∨ dir = 0 then v.rootCluster else dir

/-- One element is looked up. -/
def scanElem (v : Volume) (dir : Nat) (e : Elem) : Option (Option Slot) :=
  if e.name.length ≤ kMaxPathElem then v.scanDir e.name (v.startDir e dir) (v.numClusters + 1)
  else none

/-- The walk along the elements, the last of which is followed by a slash or not. -/
def resolve (v : Volume) (post : Bool) : Nat → List Elem → Option (Option Slot × Bool)
  | _, [] => none
  | dir, [e] => (v.scanElem dir e).map fun r => (r, post)
  | dir, e :: e' :: es => (v.scanElem dir e).bind fun
    | none => some (none, true)
    | some s =>
        if v.attr s = kDirectory then v.resolve post (v.firstCluster s) (e' :: es) else
        some (some s, true)

theorem findFileLoop_succ {fuel : Nat} {next : Option (List UInt8)}
    (h : nextPathElement (strip path) = (name, next)) :
    v.findFileLoop (fuel + 1) path dir = (v.scanElem dir ⟨path.head? = some slash, name⟩).bind fun
      | none => some (none, next.isSome)
      | some s =>
        match next with
        | some nextPath =>
          if v.attr s = kDirectory ∧ nextPath ≠ [] then
            v.findFileLoop fuel nextPath (v.firstCluster s)
          else some (some s, true)
        | none => some (some s, false) := by
  rw [findFileLoop, h]
  unfold scanElem startDir
  simp only [decide_eq_true_eq]
  split
  · rfl
  · rfl

theorem parse_cons (fuel : Nat) (path : List UInt8) :
    ∃ e es, (parse (fuel + 1) path).1 = e :: es := by
  rw [parse]
  split <;> exact ⟨_, _, rfl⟩

theorem findFileLoop_eq : ∀ {fuel path dir}, path.length < fuel →
    v.findFileLoop fuel path dir = v.resolve (parse fuel path).2 dir (parse fuel path).1 := by
  intro fuel
  induction fuel with
  | zero => exact fun h => absurd h (Nat.not_lt_zero _)
  | succ fuel ih =>
    intro path dir hfuel
    rcases hnext : nextPathElement (strip path) with ⟨name, _ | rest⟩
    · rw [findFileLoop_succ hnext, parse, hnext]
      show Option.bind _ _ = Option.map _ _
      rcases v.scanElem dir ⟨path.head? = some slash, name⟩ with _ | _ | s <;> rfl
    rcases rest with _ | ⟨c, rest⟩
    · rw [findFileLoop_succ hnext, parse, hnext]
      show Option.bind _ _ = Option.map _ _
      rcases v.scanElem dir ⟨path.head? = some slash, name⟩ with _ | _ | s
      · rfl
      · rfl
      · exact if_neg fun h => h.2 rfl
    · -- the walk goes on
      have hlen : (c :: rest).length < fuel := by
        have := (nextPathElement_append hnext []).2
        have := strip_length path
        omega
      obtain ⟨fuel, rfl⟩ : ∃ n, fuel = n + 1 := ⟨fuel - 1, by omega⟩
      obtain ⟨e', es, hes⟩ := parse_cons fuel (c :: rest)
      have ih := fun dir => @ih (c :: rest) dir hlen
      rw [findFileLoop_succ hnext, parse, hnext]
      dsimp only
      rw [hes] at ih ⊢
      rw [resolve]
      rcases v.scanElem dir ⟨path.head? = some slash, name⟩ with _ | _ | s
      · rfl
      · rfl
      · show (if v.attr s = kDirectory ∧ c :: rest ≠ [] then _ else _) =
          if v.attr s = kDirectory then _ else _
        rw [ih]
        by_cases ha : v.attr s = kDirectory
        · rw [if_pos ⟨ha, List.cons_ne_nil _ _⟩, if_pos ha]
        · rw [if_neg fun h => ha h.1, if_neg ha]

/-- `FindFile` walks the elements of the path. -/
theorem findFile_eq (v : Volume) (path : List UInt8) :
    v.findFile path = v.resolve (postSlash path) 0 (elems path) :=
  findFileLoop_eq (Nat.lt_succ_self _)

end Volume

/-! ### The last slash -/

theorem strrchr_none {c : UInt8} {l : List UInt8} (h : strrchr c l = none) : c ∉ l := by
  induction l with
  | nil => exact List.not_mem_nil
  | cons x l ih =>
    rw [strrchr] at h
    rcases hrec : strrchr c l with _ | i
    · rw [hrec] at h
      dsimp only at h
      split at h
      · cases h
      · rename_i hne
        exact List.not_mem_cons_of_ne_of_not_mem (Ne.symm hne) (ih hrec)
    · rw [hrec] at h
      cases h

theorem strrchr_some {c : UInt8} {l : List UInt8} : ∀ {k}, strrchr c l = some k →
    l = l.take k ++ c :: l.drop (k + 1) ∧ c ∉ l.drop (k + 1) := by
  induction l with
  | nil => intro k h; cases h
  | cons x l ih =>
    intro k h
    rw [strrchr] at h
    rcases hrec : strrchr c l with _ | i
    · rw [hrec] at h
      dsimp only at h
      split at h
      · rename_i heq
        cases h
        exact ⟨by rw [heq]; rfl, strrchr_none hrec⟩
      · cases h
    · rw [hrec] at h
      cases h
      obtain ⟨hl, hnot⟩ := ih hrec
      exact ⟨by rw [List.take_succ_cons, List.cons_append, List.drop_succ_cons, ← hl], hnot⟩

/-- A path is a file name, or its part before the last slash, the slash and the file name. -/
theorem splitPath_spec (path : List UInt8) : slash ∉ (splitPath path).2 ∧
    ((slash ∉ path ∧ splitPath path = ([], path)) ∨ path = (splitPath path).1 ++ slash ::
      (splitPath path).2) := by
  rw [splitPath]
  rcases h : strrchr slash path with _ | k
  · exact ⟨strrchr_none h, .inl ⟨strrchr_none h, rfl⟩⟩
  · obtain ⟨hl, hnot⟩ := strrchr_some h
    exact ⟨hnot, .inr hl⟩

theorem elems_splitPath (h : slash ∈ path → (splitPath path).2 ≠ []) : postSlash path = false ∧
    (((splitPath path).1 = [] ∧ ∃ b, elems path = [⟨b, (splitPath path).2⟩]) ∨
      ((splitPath path).1 ≠ [] ∧ elems path = elems (splitPath path).1 ++
        [⟨postSlash (splitPath path).1, (splitPath path).2⟩])) := by
  obtain ⟨hnot, hcases⟩ := splitPath_spec path
  rcases hcases with ⟨hno, hsplit⟩ | hpath
  · have hparse := parse_of_not_mem hno path.length
    rw [postSlash, elems, hparse, hsplit]
    exact ⟨rfl, .inl ⟨rfl, false, rfl⟩⟩
  · set parent := (splitPath path).1
    set f := (splitPath path).2
    have hmem : slash ∈ path := by
      rw [hpath]
      exact List.mem_append_right _ List.mem_cons_self
    by_cases hparent : parent = []
    · have hparse := parse_slash hnot path.length
      rw [hparent, List.nil_append] at hpath
      rw [← hpath] at hparse
      rw [postSlash, elems, hparse]
      exact ⟨rfl, .inl ⟨hparent, true, rfl⟩⟩
    · have hlen : path.length = parent.length + f.length + 1 := by
        conv_lhs => rw [hpath]
        rw [List.length_append, List.length_cons]
        omega
      have hparse :=
        @parse_append f hnot (h hmem) (parent.length + 1) (path.length + 1) parent hparent
        (by omega) (by have := List.length_pos_of_ne_nil (h hmem); omega)
      rw [← hpath] at hparse
      rw [postSlash, elems, hparse]
      exact ⟨rfl, .inr ⟨hparent, rfl⟩⟩

end Moxia.Fat
