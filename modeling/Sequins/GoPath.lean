import Mathlib.Data.List.DropRight

/-!
# Go paths

The package `path` on byte strings: `Clean`, `Join`, `Base` and `Split`. A path is taken apart at
its slashes (byte `47`); `Clean` goes through the parts with a stack, on which `..` takes the last
part away unless there is none. A proper name joined to a path stands at its end (`join_concat`),
and `Clean` is idempotent (`clean_clean`).
-/

namespace GoPath

/-- One part of a path, with the parts before it, last first. -/
def pushPart (rooted : Bool) (parts : List (List UInt8)) (part : List UInt8) :
    List (List UInt8) :=
  if part = [] ∨ part = [46] then
    parts
  else if part = [46, 46] then
    match parts with
    | [] => if rooted then [] else [part]
    | last :: rest => if last = [46, 46] then part :: parts else rest
  else
    part :: parts

/-- `Clean`. -/
def clean (p : List UInt8) : List UInt8 :=
  let rooted := p.head? == some 47
  let out := [47].intercalate ((p.splitOn 47).foldl (pushPart rooted) []).reverse
  if rooted then 47 :: out else if out = [] then [46] else out

/-- `Join`: empty elements at the front are passed over. -/
def join (elems : List (List UInt8)) : List UInt8 :=
  match elems.dropWhile (· = []) with
  | [] => []
  | rest => clean ([47].intercalate rest)

/-- `Base`: the last part, after the slashes at the end are gone. -/
def base (p : List UInt8) : List UInt8 :=
  if p = [] then
    [46]
  else
    match p.rdropWhile (· = 47) with
    | [] => [47]
    | rest => rest.rtakeWhile (· ≠ 47)

/-- `Split`: everything up to the last slash, and what follows it. -/
def split (p : List UInt8) : List UInt8 × List UInt8 :=
  (p.rdropWhile (· ≠ 47), p.rtakeWhile (· ≠ 47))

-- `/a/./b//../c/` and `a` joined with `../..`
example : clean [47, 97, 47, 46, 47, 98, 47, 47, 46, 46, 47, 99, 47] = [47, 97, 47, 99] := by decide
example : join [[], [97], [], [46, 46, 47, 46, 46]] = [46, 46] := by decide

/-- A name is its own base. -/
theorem base_of_not_mem {name : List UInt8} (hne : name ≠ []) (hname : 47 ∉ name) :
    base name = name := by
  have hkeep : name.rdropWhile (· = 47) = name := by
    rw [List.rdropWhile_eq_self_iff]
    intro hl hlast
    exact hname (of_decide_eq_true hlast ▸ List.getLast_mem hne)
  have htake : name.rtakeWhile (· ≠ 47) = name := by
    rw [List.rtakeWhile_eq_self_iff]
    intro c hc
    exact decide_eq_true fun h => hname (h ▸ hc)
  rw [base, if_neg hne, hkeep]
  split
  · exact absurd rfl hne
  · exact htake

/-- `Split` parts a name from its directory. -/
theorem split_append_slash (dir : List UInt8) {name : List UInt8} (hname : 47 ∉ name) :
    split (dir ++ 47 :: name) = (dir ++ [47], name) := by
  have hall : ∀ c ∈ name.reverse, decide (c ≠ 47) = true := by
    intro c hc
    exact decide_eq_true fun h => hname (h ▸ List.mem_reverse.mp hc)
  have hrev : (dir ++ 47 :: name).reverse = name.reverse ++ 47 :: dir.reverse := by simp
  rw [split, List.rdropWhile, List.rtakeWhile, hrev, List.dropWhile_append_of_pos hall,
    List.takeWhile_append_of_pos hall]
  simp

/-- The last part of a path is its base. -/
theorem base_append_slash {dir name : List UInt8} (hne : name ≠ []) (hname : 47 ∉ name) :
    base (dir ++ 47 :: name) = name := by
  have hkeep : (dir ++ 47 :: name).rdropWhile (· = 47) = dir ++ 47 :: name := by
    rw [List.rdropWhile_eq_self_iff]
    intro hl hlast
    rw [List.getLast_append_of_ne_nil _ (List.cons_ne_nil _ _), List.getLast_cons hne] at hlast
    exact hname (of_decide_eq_true hlast ▸ List.getLast_mem hne)
  have htake : (dir ++ 47 :: name).rtakeWhile (· ≠ 47) = name :=
    congrArg Prod.snd (split_append_slash dir hname)
  rw [base, if_neg (by simp), hkeep]
  split
  · rename_i h
    simp at h
  · exact htake

/-! ## Joining names

A proper name is not empty, and neither a dot nor two. All that `Clean` does with such a name is
to put it on the stack, so joining it to a path that is not just the root or the working
directory adds a slash and the name. -/

/-- A part that `Clean` keeps. -/
def Proper (part : List UInt8) : Prop := part ≠ [] ∧ part ≠ [46] ∧ part ≠ [46, 46]

instance Proper.decidable (part : List UInt8) : Decidable (Proper part) :=
  inferInstanceAs (Decidable (part ≠ [] ∧ part ≠ [46] ∧ part ≠ [46, 46]))

/-- A path that names something: neither empty, nor the root, nor the working directory. -/
def Named (p : List UInt8) : Prop := p ≠ [] ∧ p ≠ [47] ∧ p ≠ [46]

instance Named.decidable (p : List UInt8) : Decidable (Named p) :=
  inferInstanceAs (Decidable (p ≠ [] ∧ p ≠ [47] ∧ p ≠ [46]))

theorem named_append_slash {p name : List UInt8} (hname : name ≠ []) :
    Named (p ++ 47 :: name) := by
  refine ⟨by simp, ?_, ?_⟩
  · intro h
    have hlen : p.length + (name.length + 1) = 1 := by simpa using congrArg List.length h
    have hpos : 0 < name.length := List.length_pos_iff.mpr hname
    omega
  · intro h
    have hslash : 47 ∈ p ++ 47 :: name := by simp
    simp [h] at hslash

theorem pushPart_of_proper {rooted : Bool} {parts : List (List UInt8)} {part : List UInt8}
    (h : Proper part) : pushPart rooted parts part = part :: parts := by
  rw [pushPart.eq_def, if_neg (not_or.mpr ⟨h.1, h.2.1⟩), if_neg h.2.2]

theorem intercalate_concat (sep name : List UInt8) {parts : List (List UInt8)} (h : parts ≠ []) :
    sep.intercalate (parts ++ [name]) = sep.intercalate parts ++ (sep ++ name) := by
  induction parts with
  | nil => exact absurd rfl h
  | cons part parts ih =>
    rcases parts with _ | ⟨next, parts⟩
    · simp
    · have hrest : next :: parts ≠ [] := List.cons_ne_nil _ _
      have hlonger : next :: parts ++ [name] ≠ [] := List.append_ne_nil_of_left_ne_nil hrest _
      rw [List.cons_append, List.intercalate_cons_of_ne_nil hlonger, ih hrest,
        List.intercalate_cons_of_ne_nil hrest]
      simp only [List.append_assoc]

/-- What `Clean` does with a name at the end. -/
theorem clean_append_slash {p name : List UInt8} (hp : p ≠ []) (hname : Proper name)
    (hslash : 47 ∉ name) (hclean : Named (clean p)) :
    clean (p ++ 47 :: name) = clean p ++ 47 :: name := by
  have hhead : (p ++ 47 :: name).head? = p.head? := List.head?_append_of_ne_nil _ hp
  have hsplit : (p ++ 47 :: name).splitOn 47 = p.splitOn 47 ++ [name] := by
    rw [List.splitOn_append_cons_self, List.splitOn_eq_singleton hslash]
  simp only [clean, hhead, hsplit, List.foldl_append, List.foldl_cons, List.foldl_nil,
    pushPart_of_proper hname, List.reverse_cons] at hclean ⊢
  generalize ((p.splitOn 47).foldl (pushPart (p.head? == some 47)) []).reverse = parts at *
  rcases eq_or_ne parts [] with rfl | hparts
  · -- nothing is left of `p`, so it does not name anything
    split at hclean
    · exact absurd rfl hclean.2.1
    · exact absurd rfl hclean.2.2
  · rw [intercalate_concat _ _ hparts]
    by_cases hroot : (p.head? == some 47) = true
    · rw [if_pos hroot, if_pos hroot]
      rfl
    · rw [if_neg hroot] at hclean ⊢
      rw [if_neg hroot]
      by_cases hout : [47].intercalate parts = []
      · rw [if_pos hout] at hclean
        exact absurd rfl hclean.2.2
      · rw [if_neg hout, if_neg (List.append_ne_nil_of_left_ne_nil hout _)]
        rfl

/-- **Joining one more name to a path that names something.** -/
theorem join_concat {elems : List (List UInt8)} {name : List UInt8} (hname : Proper name)
    (hslash : 47 ∉ name) (hjoin : Named (join elems)) :
    join (elems ++ [name]) = join elems ++ 47 :: name := by
  rcases hrest : elems.dropWhile (· = []) with _ | ⟨first, rest⟩
  · exact absurd (by rw [join, hrest]) hjoin.1
  · have hdrop : (elems ++ [name]).dropWhile (· = []) = first :: rest ++ [name] := by
      rw [List.dropWhile_append, hrest]
      rfl
    have hfirst : first ≠ [] := by
      have h := List.head_dropWhile_not (fun x : List UInt8 => decide (x = [])) (l := elems)
        (by rw [hrest]; simp)
      simpa [hrest] using h
    have hne : [47].intercalate (first :: rest) ≠ [] := by
      rcases rest with _ | ⟨next, rest⟩
      · simpa using hfirst
      · simp
    simp only [join, hrest] at hjoin
    simp only [join, hrest, hdrop, List.cons_append]
    rw [← List.cons_append, intercalate_concat _ _ (List.cons_ne_nil _ _)]
    exact clean_append_slash hne hname hslash hjoin

/-! ## A clean path is left alone

A stack of parts is `Settled` if going through its own parts builds it up again. Every stack that
`Clean` comes to is settled, by induction on the parts; so a second `Clean`, which goes through
the parts that the first one has put together, ends with the same stack. -/

/-- A path from its parts, last first. -/
def ofParts (rooted : Bool) (parts : List (List UInt8)) : List UInt8 :=
  let out := [47].intercalate parts.reverse
  if rooted then 47 :: out else if out = [] then [46] else out

/-- `Clean` as a stack, put together at the end. -/
theorem clean_eq (p : List UInt8) :
    clean p = ofParts (p.head? == some 47)
      ((p.splitOn 47).foldl (pushPart (p.head? == some 47)) []) := rfl

/-- What is between two slashes has none. -/
theorem not_mem_of_mem_splitOn {p part : List UInt8} (h : part ∈ p.splitOn 47) : 47 ∉ part := by
  induction p generalizing part with
  | nil =>
    rw [List.splitOn_nil, List.mem_singleton] at h
    simp [h]
  | cons c p ih =>
    rw [List.splitOn_cons_eq_if_modifyHead] at h
    split at h
    · rcases List.mem_cons.mp h with rfl | h
      · simp
      · exact ih h
    · rename_i hc
      rcases hs : p.splitOn 47 with _ | ⟨first, rest⟩
      · exact absurd hs (List.splitOn_ne_nil _ _)
      · rw [hs, List.modifyHead_cons] at h
        rcases List.mem_cons.mp h with rfl | h
        · intro hmem
          rcases List.mem_cons.mp hmem with rfl | hmem
          · exact hc (beq_self_eq_true _)
          · exact ih (hs ▸ List.mem_cons_self ..) hmem
        · exact ih (hs ▸ List.mem_cons_of_mem _ h)

/-- A stack that its own parts build up again. -/
structure Settled (rooted : Bool) (parts : List (List UInt8)) : Prop where
  fold : parts.reverse.foldl (pushPart rooted) [] = parts
  names : ∀ part ∈ parts, part ≠ [] ∧ part ≠ [46] ∧ 47 ∉ part

/-- A part that is pushed when its turn comes can be put on a settled stack. -/
theorem Settled.cons {rooted : Bool} {parts : List (List UInt8)} {part : List UInt8}
    (h : Settled rooted parts) (hpush : pushPart rooted parts part = part :: parts)
    (hpart : part ≠ [] ∧ part ≠ [46] ∧ 47 ∉ part) : Settled rooted (part :: parts) where
  fold := by
    rw [List.reverse_cons, List.foldl_append, h.fold]
    exact hpush
  names := List.forall_mem_cons.mpr ⟨hpart, h.names⟩

/-- Taking a name off the stack again. -/
theorem Settled.tail {rooted : Bool} {last : List UInt8} {rest : List (List UInt8)}
    (h : Settled rooted (last :: rest)) (hlast : last ≠ [46, 46]) : Settled rooted rest where
  fold := by
    have hname := h.names last (List.mem_cons_self ..)
    have hfold := h.fold
    rw [List.reverse_cons, List.foldl_append, List.foldl_cons, List.foldl_nil,
      pushPart_of_proper ⟨hname.1, hname.2.1, hlast⟩] at hfold
    exact (List.cons.inj hfold).2
  names part hpart := h.names part (List.mem_cons_of_mem _ hpart)

/-- Whatever a part does to it, the stack stays settled. -/
theorem Settled.push {rooted : Bool} {parts : List (List UInt8)} {part : List UInt8}
    (h : Settled rooted parts) (hpart : 47 ∉ part) :
    Settled rooted (pushPart rooted parts part) := by
  by_cases hskip : part = [] ∨ part = [46]
  · rwa [pushPart.eq_def, if_pos hskip]
  have hname : part ≠ [] ∧ part ≠ [46] ∧ 47 ∉ part :=
    ⟨fun h => hskip (.inl h), fun h => hskip (.inr h), hpart⟩
  by_cases hup : part = [46, 46]
  · subst hup
    rcases parts with _ | ⟨last, rest⟩
    · rcases rooted with _ | _
      · exact h.cons rfl hname
      · exact h
    · by_cases hlast : last = [46, 46]
      · have hpush : pushPart rooted (last :: rest) [46, 46] = [46, 46] :: last :: rest := by
          simp [pushPart, hlast]
        rw [hpush]
        exact h.cons hpush hname
      · have hpush : pushPart rooted (last :: rest) [46, 46] = rest := by simp [pushPart, hlast]
        rw [hpush]
        exact h.tail hlast
  · have hpush : pushPart rooted parts part = part :: parts :=
      pushPart_of_proper ⟨hname.1, hname.2.1, hup⟩
    rw [hpush]
    exact h.cons hpush hname

theorem settled_foldl (rooted : Bool) (p : List UInt8) :
    Settled rooted ((p.splitOn 47).foldl (pushPart rooted) []) := by
  refine List.foldlRecOn (p.splitOn 47) (pushPart rooted) ⟨rfl, by simp⟩ ?_
  intro parts h part hpart
  exact h.push (not_mem_of_mem_splitOn hpart)

/-- The parts are found again between the slashes. -/
theorem Settled.splitOn_intercalate {rooted : Bool} {parts : List (List UInt8)}
    (h : Settled rooted parts) (hne : parts ≠ []) :
    ([47].intercalate parts.reverse).splitOn 47 = parts.reverse := by
  refine List.splitOn_intercalate 47 (fun part hpart => ?_) (by simpa using hne)
  exact (h.names part (List.mem_reverse.mp hpart)).2.2

/-- What is put together does not begin with a slash, since its parts do not. -/
theorem Settled.head_intercalate {rooted : Bool} {parts : List (List UInt8)}
    (h : Settled rooted parts) (hne : parts ≠ []) :
    ∃ c rest, [47].intercalate parts.reverse = c :: rest ∧ c ≠ 47 := by
  rcases hrev : parts.reverse with _ | ⟨first, rest⟩
  · exact absurd (List.reverse_eq_nil_iff.mp hrev) hne
  · have hfirst := h.names first (List.mem_reverse.mp (hrev ▸ List.mem_cons_self ..))
    rcases first with _ | ⟨c, first⟩
    · exact absurd rfl hfirst.1
    · have hc : c ≠ 47 := fun hc => hfirst.2.2 (hc ▸ List.mem_cons_self ..)
      rcases rest with _ | ⟨next, rest⟩
      · exact ⟨c, first, List.intercalate_singleton, hc⟩
      · exact ⟨c, _, List.intercalate_cons_cons_left, hc⟩

/-- **`Clean` is idempotent.** -/
theorem clean_clean (p : List UInt8) : clean (clean p) = clean p := by
  have hsettled := settled_foldl (p.head? == some 47) p
  rw [clean_eq p]
  generalize (p.splitOn 47).foldl (pushPart (p.head? == some 47)) [] = parts at hsettled ⊢
  generalize (p.head? == some 47) = rooted at hsettled ⊢
  rcases eq_or_ne parts [] with rfl | hne
  · rcases rooted with _ | _ <;> decide
  have hsplit := hsettled.splitOn_intercalate hne
  rcases rooted with _ | _
  · obtain ⟨c, rest, hout, hc⟩ := hsettled.head_intercalate hne
    have hparts : ofParts false parts = c :: rest := by simp [ofParts, hout]
    have hhead : ((c :: rest).head? == some 47) = false := by simpa using hc
    rw [hparts, clean_eq, hhead, ← hout, hsplit, hsettled.fold, hparts, hout]
  · have hparts : (ofParts true parts).splitOn 47 = [] :: parts.reverse := by
      rw [ofParts, if_pos rfl, List.splitOn_cons_eq_if_modifyHead, hsplit]
      rfl
    have hhead : ((ofParts true parts).head? == some 47) = true := rfl
    have hfold : ([] :: parts.reverse).foldl (pushPart true) [] = parts := hsettled.fold
    rw [clean_eq, hhead, hparts, hfold]

theorem join_singleton {p : List UInt8} (hp : p ≠ []) : join [p] = clean p := by
  rw [join, List.dropWhile_cons_of_neg (by simpa using hp)]
  simp

theorem clean_join {elems : List (List UInt8)} (h : join elems ≠ []) :
    clean (join elems) = join elems := by
  rcases hrest : elems.dropWhile (· = []) with _ | ⟨first, rest⟩
  · exact absurd (by rw [join, hrest]) h
  · have hjoin : join elems = clean ([47].intercalate (first :: rest)) := by rw [join, hrest]
    rw [hjoin, clean_clean]

/-- Joining a name to a directory in a clean path. -/
theorem join_pair {dir v name : List UInt8} (hdir : Named dir) (hclean : clean dir = dir)
    (hv : Proper v ∧ 47 ∉ v) (hname : Proper name ∧ 47 ∉ name) :
    join [dir ++ 47 :: v, name] = dir ++ 47 :: (v ++ 47 :: name) := by
  have hone : join [dir ++ 47 :: v] = dir ++ 47 :: v := by
    rw [join_singleton (by simp), clean_append_slash hdir.1 hv.1 hv.2 (by rwa [hclean]), hclean]
  have hnamed : Named (join [dir ++ 47 :: v]) := by
    rw [hone]
    exact named_append_slash hv.1.1
  calc
    join [dir ++ 47 :: v, name] = join ([dir ++ 47 :: v] ++ [name]) := rfl
    _ = dir ++ 47 :: v ++ 47 :: name := by rw [join_concat hname.1 hname.2 hnamed, hone]
    _ = dir ++ 47 :: (v ++ 47 :: name) := by simp

/-! ## A name at the end

Where names vary and the directory before them does not, the directory is said once, with its
slash, and the name is what comes after it. -/

/-- The parts of a directory, last first, with a slash after each. -/
def dirOf (rooted : Bool) (parts : List (List UInt8)) : List UInt8 :=
  (if rooted then [47] else []) ++ parts.reverse.flatMap (· ++ [47])

/-- The last part has no slash after it. -/
theorem intercalate_reverse_cons (parts : List (List UInt8)) (name : List UInt8) :
    [47].intercalate (name :: parts).reverse = parts.reverse.flatMap (· ++ [47]) ++ name := by
  rw [List.reverse_cons]
  induction parts.reverse with
  | nil => simp
  | cons part rest ih =>
    have hne : rest ++ [name] ≠ [] := by simp
    rw [List.cons_append, List.intercalate_cons_of_ne_nil hne, ih]
    simp

/-- A path is its directory and its last part. -/
theorem ofParts_cons (rooted : Bool) (parts : List (List UInt8)) {name : List UInt8}
    (hname : name ≠ []) : ofParts rooted (name :: parts) = dirOf rooted parts ++ name := by
  rw [ofParts, intercalate_reverse_cons, dirOf]
  cases rooted with
  | true => simp
  | false =>
    have hne : parts.reverse.flatMap (· ++ [47]) ++ name ≠ [] :=
      List.append_ne_nil_of_right_ne_nil _ hname
    simp [hne]

/-- A directory is empty or ends in a slash. -/
theorem dirOf_cases (rooted : Bool) (parts : List (List UInt8)) :
    dirOf rooted parts = [] ∨ ∃ dir, dirOf rooted parts = dir ++ [47] := by
  cases parts with
  | nil =>
    cases rooted with
    | true => exact .inr ⟨[], rfl⟩
    | false => exact .inl rfl
  | cons part parts =>
    refine .inr ⟨dirOf rooted parts ++ part, ?_⟩
    simp [dirOf]

/-- **What `Clean` makes of a name at the end**: a directory, the same for every name, and the
name. -/
theorem clean_concat (p : List UInt8) {name : List UInt8} (hname : Proper name)
    (hslash : 47 ∉ name) :
    clean (p ++ 47 :: name) = dirOf ((p ++ [47]).head? == some 47)
      ((p.splitOn 47).foldl (pushPart ((p ++ [47]).head? == some 47)) []) ++ name := by
  have hhead : (p ++ 47 :: name).head? = (p ++ [47]).head? := by cases p <;> rfl
  have hsplit : (p ++ 47 :: name).splitOn 47 = p.splitOn 47 ++ [name] := by
    rw [List.splitOn_append_cons_self, List.splitOn_eq_singleton hslash]
  rw [clean_eq, hhead, hsplit, List.foldl_append, List.foldl_cons, List.foldl_nil,
    pushPart_of_proper hname, ofParts_cons _ _ hname.1]

/-- A name after a directory is the base. -/
theorem base_dirOf (rooted : Bool) (parts : List (List UInt8)) {name : List UInt8}
    (hname : name ≠ []) (hslash : 47 ∉ name) : base (dirOf rooted parts ++ name) = name := by
  obtain hdir | ⟨dir, hdir⟩ := dirOf_cases rooted parts
  · rw [hdir, List.nil_append]
    exact base_of_not_mem hname hslash
  · rw [hdir, List.append_assoc, List.singleton_append]
    exact base_append_slash hname hslash

/-- **Joining a name**: a directory, the same for every name, and the name. -/
theorem exists_join_name (elems : List (List UInt8)) :
    ∃ rooted parts, ∀ name, Proper name → 47 ∉ name →
      join (elems ++ [name]) = dirOf rooted parts ++ name := by
  rcases hrest : elems.dropWhile (· = []) with _ | ⟨first, rest⟩
  · refine ⟨false, [], fun name hname hslash => ?_⟩
    have hdrop : (elems ++ [name]).dropWhile (· = []) = [name] := by
      rw [List.dropWhile_append, hrest]
      simp [hname.1]
    have hhead : (name.head? == some 47) = false := by
      rcases name with _ | ⟨c, name⟩
      · rfl
      · have hc : c ≠ 47 := fun hc => hslash (hc ▸ List.mem_cons_self ..)
        simpa using hc
    rw [join, hdrop]
    simp only [List.intercalate_singleton]
    rw [clean_eq, hhead, List.splitOn_eq_singleton hslash, List.foldl_cons, List.foldl_nil,
      pushPart_of_proper hname, ofParts_cons _ _ hname.1]
  · have hjoin : ∀ name, join (elems ++ [name]) =
        clean ([47].intercalate (first :: rest) ++ 47 :: name) := by
      intro name
      have hdrop : (elems ++ [name]).dropWhile (· = []) = first :: rest ++ [name] := by
        rw [List.dropWhile_append, hrest]
        rfl
      have hconcat := intercalate_concat [47] name (List.cons_ne_nil first rest)
      rw [join, hdrop]
      exact congrArg clean hconcat
    exact ⟨_, _, fun name hname hslash => (hjoin name).trans (clean_concat _ hname hslash)⟩

/-! ## Directories from the root

A stack from the root has no `..` on it, so all of its parts are proper names, and its directory
begins and ends with a slash. -/

/-- Above the root there is nothing, so no `..` is left. -/
theorem ne_up_of_mem_foldl {l : List (List UInt8)} {part : List UInt8}
    (h : part ∈ l.foldl (pushPart true) []) : part ≠ [46, 46] := by
  suffices hall : ∀ part ∈ l.foldl (pushPart true) [], part ≠ [46, 46] from hall part h
  refine List.foldlRecOn (motive := fun parts => ∀ part ∈ parts, part ≠ [46, 46]) l
    (pushPart true) (List.forall_mem_nil _) ?_
  intro parts hparts next _ part hpart
  rw [pushPart.eq_def] at hpart
  split at hpart
  · exact hparts part hpart
  split at hpart
  · rcases parts with _ | ⟨last, rest⟩
    · simp at hpart
    · have hlast : last ≠ [46, 46] := hparts last (List.mem_cons_self ..)
      simp only [if_neg hlast] at hpart
      exact hparts part (List.mem_cons_of_mem _ hpart)
  · rename_i hnext
    obtain rfl | hpart := List.mem_cons.mp hpart
    · exact hnext
    · exact hparts part hpart

/-- All parts of a rooted path are proper names. -/
theorem Settled.proper {parts : List (List UInt8)} (h : Settled true parts) {part : List UInt8}
    (hpart : part ∈ parts) : Proper part := by
  have hname := h.names part hpart
  have hup : part ≠ [46, 46] := by
    rw [← h.fold] at hpart
    exact ne_up_of_mem_foldl hpart
  exact ⟨hname.1, hname.2.1, hup⟩

theorem splitOn_flatMap {l : List (List UInt8)} (h : ∀ part ∈ l, 47 ∉ part) :
    (l.flatMap (· ++ [47])).splitOn 47 = l ++ [[]] := by
  induction l with
  | nil => simp
  | cons part l ih =>
    obtain ⟨hpart, hl⟩ := List.forall_mem_cons.mp h
    have hcons : (part :: l).flatMap (· ++ [47]) = part ++ 47 :: l.flatMap (· ++ [47]) := by
      simp
    rw [hcons, List.splitOn_append_cons_self, List.splitOn_eq_singleton hpart, ih hl]
    rfl

/-- There is a slash at the end. -/
theorem exists_dirOf (parts : List (List UInt8)) : ∃ dir, dirOf true parts = dir ++ [47] := by
  obtain h | h := dirOf_cases true parts
  · simp [dirOf] at h
  · exact h

theorem dirOf_cons (part : List UInt8) (parts : List (List UInt8)) :
    dirOf true (part :: parts) = dirOf true parts ++ part ++ [47] := by
  simp [dirOf]

/-- The parts of a directory are taken from it again. -/
theorem foldl_splitOn_dirOf {parts : List (List UInt8)} (h : Settled true parts) :
    ((dirOf true parts).splitOn 47).foldl (pushPart true) [] = parts := by
  have hsplit : (dirOf true parts).splitOn 47 = [] :: parts.reverse ++ [[]] := by
    have hcons : dirOf true parts = ([] :: parts.reverse).flatMap (· ++ [47]) := rfl
    rw [hcons]
    refine splitOn_flatMap fun part hpart => ?_
    obtain rfl | hpart := List.mem_cons.mp hpart
    · simp
    · exact (h.names part (List.mem_reverse.mp hpart)).2.2
  have hfold : ([] :: parts.reverse).foldl (pushPart true) [] = parts := h.fold
  rw [hsplit, List.foldl_append, hfold]
  rfl

/-- `Clean` takes the slash off the end of a directory. -/
theorem clean_dirOf {parts : List (List UInt8)} (h : Settled true parts) :
    clean (dirOf true parts) = ofParts true parts := by
  have hhead : ((dirOf true parts).head? == some 47) = true := rfl
  rw [clean_eq, hhead, foldl_splitOn_dirOf h]

/-- **Joining a name to a rooted path**: the directory is rooted too. -/
theorem exists_join_rooted {root : List UInt8} (hroot : root.head? = some 47) (p : List UInt8) :
    ∃ parts, Settled true parts ∧ ∀ name, Proper name → 47 ∉ name →
      join [root, join [p, name]] = dirOf true parts ++ name := by
  have hne : root ≠ [] := by
    rintro rfl
    simp at hroot
  have hjoin : ∀ q, join [root, q] = clean (root ++ 47 :: q) := by
    intro q
    rw [join, List.dropWhile_cons_of_neg (by simpa using hne)]
    simp
  have hconcat : ∀ dir, (root ++ dir ++ [47]).head? == some 47 := by
    intro dir
    rw [List.append_assoc, List.head?_append_of_ne_nil _ hne, hroot]
    rfl
  obtain ⟨rooted, below, hbelow⟩ := exists_join_name [p]
  obtain hdir | ⟨dir, hdir⟩ := dirOf_cases rooted below
  · refine ⟨_, settled_foldl true root, fun name hname hslash => ?_⟩
    have hjoined : join [p, name] = name := by
      have h := hbelow name hname hslash
      rwa [hdir] at h
    have hroots : ((root ++ [47]).head? == some 47) = true := by simpa using hconcat []
    rw [hjoined, hjoin, clean_concat _ hname hslash, hroots]
  · refine ⟨_, settled_foldl true (root ++ 47 :: dir), fun name hname hslash => ?_⟩
    have hjoined : join [p, name] = dir ++ 47 :: name := by
      have h := hbelow name hname hslash
      rw [hdir] at h
      simpa using h
    have hassoc : root ++ 47 :: (dir ++ 47 :: name) = (root ++ 47 :: dir) ++ 47 :: name := by simp
    rw [hjoined, hjoin, hassoc, clean_concat _ hname hslash, hconcat (47 :: dir)]

end GoPath
