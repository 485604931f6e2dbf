import Sequins.GoPath
import Mathlib.Data.List.Infix

/-!
# Go file paths

The package `path/filepath` where the separator is a slash: `Clean` is that of `path`, and `Dir`
cleans what is before the last slash. A path that is rooted is given by its parts (`parts`), and
whether it lies below another one can be told from them (`below_iff`), or from the text, if
a slash is put after the upper one (`Below`). The parts of the directory are those of the
path but for the last (`parts_eq`), where `..` takes another one away. All that lies between the
root and a path is `chain`, from the root down.
-/

namespace GoPath

/-- The parts of a rooted path, as `Clean` leaves them. -/
def parts (p : List UInt8) : List (List UInt8) := ((p.splitOn 47).foldl (pushPart true) []).reverse

/-- `filepath.Dir`: everything up to the last slash, cleaned. -/
def dir (p : List UInt8) : List UInt8 := clean (split p).1

/-- A path that is another one, or is below it, once both are clean. -/
def Below (p root : List UInt8) : Prop :=
  clean p = clean root ∨ clean root = [47] ∨ clean root ++ [47] <+: clean p

instance (p root : List UInt8) : Decidable (Below p root) := inferInstanceAs (Decidable (_ ∨ _ ∨ _))

variable {p q : List UInt8}

/-- A rooted path is a slash, and its parts with slashes between them. -/
theorem clean_of_rooted (hp : p.head? = some 47) : clean p = 47 :: [47].intercalate (parts p) := by
  rw [clean, hp]
  rfl

theorem head_clean (hp : p.head? = some 47) : (clean p).head? = some 47 := by
  rw [clean_of_rooted hp]
  rfl

/-- The parts of a path are what `Clean` would make of them. -/
theorem settled_parts (p : List UInt8) : Settled true (parts p).reverse := by
  rw [parts, List.reverse_reverse]
  exact settled_foldl true p

theorem length_pushPart_le (rooted : Bool) (parts : List (List UInt8)) (part : List UInt8) :
    (pushPart rooted parts part).length ≤ parts.length + 1 := by
  rw [pushPart.eq_def]
  split
  · omega
  split
  · cases parts with
    | nil => cases rooted <;> simp
    | cons last rest =>
      dsimp only
      split
      · simp
      · simp only [List.length_cons]
        omega
  · simp

theorem length_splitOn_le (p : List UInt8) : (p.splitOn 47).length ≤ p.length + 1 := by
  induction p with
  | nil => simp
  | cons c p ih =>
    rw [List.splitOn_cons_eq_if_modifyHead]
    split
    · simpa using ih
    · rw [List.length_modifyHead, List.length_cons]
      omega

/-- There are no more parts than bytes, since a slash comes before each. -/
theorem length_parts_le (hp : p.head? = some 47) : (parts p).length ≤ p.length := by
  obtain ⟨rest, rfl⟩ := List.head?_eq_some_iff.mp hp
  have hfold : ∀ l acc : List (List UInt8),
      (l.foldl (pushPart true) acc).length ≤ acc.length + l.length := by
    intro l
    induction l with
    | nil => simp
    | cons part l ih =>
      intro acc
      have hpush := length_pushPart_le true acc part
      have hrest := ih (pushPart true acc part)
      rw [List.foldl_cons, List.length_cons]
      omega
  have hsplit : ((47 :: rest).splitOn 47).foldl (pushPart true) [] =
      (rest.splitOn 47).foldl (pushPart true) [] := by
    rw [List.splitOn_cons_eq_if_modifyHead]
    rfl
  have hlen := hfold (rest.splitOn 47) []
  have hparts := length_splitOn_le rest
  rw [parts, List.length_reverse, hsplit, List.length_cons]
  rw [List.length_nil] at hlen
  omega

/-- A clean path can be taken apart again. -/
theorem splitOn_clean (hp : p.head? = some 47) (hne : parts p ≠ []) :
    (clean p).splitOn 47 = [] :: parts p := by
  have hsplit := (settled_parts p).splitOn_intercalate (by simpa using hne)
  rw [List.reverse_reverse] at hsplit
  rw [clean_of_rooted hp, List.splitOn_cons_eq_if_modifyHead, hsplit]
  rfl

/-- The root is the path without parts. -/
theorem clean_eq_root_iff (hp : p.head? = some 47) : clean p = [47] ↔ parts p = [] := by
  constructor
  · intro h
    by_contra hne
    have hsplit := splitOn_clean hp hne
    rw [h] at hsplit
    have hparts : parts p = [[]] := (List.cons.inj hsplit).2.symm
    have hname := (settled_parts p).names [] (by rw [hparts]; exact List.mem_singleton_self _)
    exact hname.1 rfl
  · intro h
    rw [clean_of_rooted hp, h]
    rfl

/-- **Rooted paths are told apart by their parts.** -/
theorem clean_eq_iff (hp : p.head? = some 47) (hq : q.head? = some 47) :
    clean p = clean q ↔ parts p = parts q := by
  constructor
  · intro h
    by_cases hne : parts p = []
    · rw [hne, eq_comm, ← clean_eq_root_iff hq, ← h, clean_eq_root_iff hp]
      exact hne
    · have hne' : parts q ≠ [] := by
        rw [Ne, ← clean_eq_root_iff hq, ← h, clean_eq_root_iff hp]
        exact hne
      have hsplit := splitOn_clean hp hne
      rw [h, splitOn_clean hq hne'] at hsplit
      exact (List.cons.inj hsplit).2.symm
  · intro h
    rw [clean_of_rooted hp, clean_of_rooted hq, h]

theorem intercalate_append {a b : List (List UInt8)} (ha : a ≠ []) (hb : b ≠ []) :
    [47].intercalate (a ++ b) = [47].intercalate a ++ 47 :: [47].intercalate b := by
  induction a with
  | nil => exact absurd rfl ha
  | cons part a ih =>
    rcases eq_or_ne a [] with rfl | hne
    · rw [List.singleton_append, List.intercalate_cons_of_ne_nil hb]
      simp
    · rw [List.cons_append, List.intercalate_cons_of_ne_nil (by simp [hb]), ih hne,
        List.intercalate_cons_of_ne_nil hne]
      simp

/-- **Below, part by part.** -/
theorem below_iff (hp : p.head? = some 47) (hq : q.head? = some 47) :
    Below p q ↔ parts q <+: parts p := by
  constructor
  · rintro (h | h | ⟨t, h⟩)
    · exact ((clean_eq_iff hp hq).mp h).symm ▸ List.prefix_refl _
    · rw [(clean_eq_root_iff hq).mp h]
      exact List.nil_prefix
    · rcases eq_or_ne (parts q) [] with hnil | hne
      · rw [hnil]
        exact List.nil_prefix
      · have hne' : parts p ≠ [] := by
          intro hnil
          have hlen := congrArg List.length h
          rw [(clean_eq_root_iff hp).mpr hnil, clean_of_rooted hq] at hlen
          simp at hlen
        have hsplit := splitOn_clean hp hne'
        rw [← h, List.append_assoc, List.singleton_append, List.splitOn_append_cons_self,
          splitOn_clean hq hne, List.cons_append] at hsplit
        exact ⟨_, (List.cons.inj hsplit).2⟩
  · rintro ⟨rest, h⟩
    rcases eq_or_ne (parts q) [] with hnil | hne
    · exact .inr (.inl ((clean_eq_root_iff hq).mpr hnil))
    rcases eq_or_ne rest [] with rfl | hrest
    · rw [List.append_nil] at h
      exact .inl ((clean_eq_iff hp hq).mpr h.symm)
    · refine .inr (.inr ⟨[47].intercalate rest, ?_⟩)
      rw [clean_of_rooted hp, clean_of_rooted hq, ← h, intercalate_append hne hrest]
      simp

/-- What is below begins with the same bytes. -/
theorem Below.begins (h : Below p q) (hp : p.head? = some 47) : clean q <+: clean p := by
  obtain h | h | h := h
  · exact h ▸ List.prefix_refl _
  · rw [h, clean_of_rooted hp]
    exact ⟨_, rfl⟩
  · exact (List.prefix_append _ _).trans h

/-! ## Directories -/

/-- `filepath.IsAbs`. -/
def isAbs (p : List UInt8) : Bool := p.head? == some 47

/-- A path is what is up to its last slash, and a name. -/
theorem exists_split (hp : p.head? = some 47) :
    ∃ q, (split p).1 = q ++ [47] ∧ p = q ++ 47 :: (split p).2 ∧ 47 ∉ (split p).2 := by
  have happend : (split p).1 ++ (split p).2 = p := List.rdropWhile_append_rtakeWhile
  have hname : 47 ∉ (split p).2 := by
    intro hmem
    have hne := List.mem_rtakeWhile_imp hmem
    simp at hne
  have hne : (split p).1 ≠ [] := by
    intro hnil
    rw [hnil, List.nil_append] at happend
    rw [happend] at hname
    exact hname (List.mem_of_mem_head? hp)
  have hlast : (split p).1.getLast hne = 47 := by
    have h := List.rdropWhile_last_not (p := fun c : UInt8 => decide (c ≠ 47)) (l := p) hne
    simpa [split] using h
  refine ⟨(split p).1.dropLast, ?_, ?_, hname⟩
  · rw [← hlast, List.dropLast_append_getLast]
  · rw [← List.singleton_append, ← List.append_assoc, ← hlast, List.dropLast_append_getLast,
      happend]

/-- The part before the last slash is rooted, too. -/
theorem head_split (hp : p.head? = some 47) : (split p).1.head? = some 47 := by
  obtain ⟨q, hq, heq, -⟩ := exists_split hp
  rw [hq]
  rw [heq] at hp
  cases q with
  | nil => rfl
  | cons c q => exact hp

/-- **The parts of a path, and of its directory.** -/
theorem parts_eq (hp : p.head? = some 47) :
    parts p = (pushPart true (parts (split p).1).reverse (split p).2).reverse := by
  obtain ⟨q, hq, heq, hname⟩ := exists_split hp
  have hdir : (parts (split p).1).reverse = (q.splitOn 47).foldl (pushPart true) [] := by
    rw [parts, List.reverse_reverse, hq, List.splitOn_append_cons_self, List.foldl_append]
    rfl
  conv_lhs => rw [heq]
  rw [hdir, parts, List.splitOn_append_cons_self, List.splitOn_eq_singleton hname,
    List.foldl_append]
  rfl

theorem clean_dir (p : List UInt8) : clean (dir p) = dir p := clean_clean _

/-! ## The way down to a path -/

/-- What is above a rooted path and below the root, from the root down. -/
def ancestors (p : List UInt8) : List (List UInt8) :=
  (parts p).dropLast.inits.tail.map fun names => 47 :: [47].intercalate names

/-- The way down to a path, with the path itself, as `Clean` has it. -/
def chain (p : List UInt8) : List (List UInt8) := ancestors p ++ [clean p]

-- `/a//./b/../c/`, and the root
example : chain [47, 97, 47, 47, 46, 47, 98, 47, 46, 46, 47, 99, 47] =
    [[47, 97], [47, 97, 47, 99]] := by decide
example : chain [47, 46, 46] = [[47]] := by decide

/-- A path with one part, or the root. -/
theorem chain_of_top (h : (parts p).dropLast = []) : chain p = [clean p] := by
  rw [chain, ancestors, h]
  rfl

/-- A clean path is a directory and a name. -/
theorem exists_above (hp : p.head? = some 47) (hne : parts p ≠ []) :
    ∃ dir name, clean p = dir ++ 47 :: name ∧ 47 ∉ name ∧ (dir ++ [47]).head? = some 47 ∧
      parts p = parts (dir ++ [47]) ++ [name] ∧
      (dir = [] ∨ clean (dir ++ [47]) = dir ∧ parts (dir ++ [47]) ≠ []) := by
  have hsettled := settled_parts p
  obtain ⟨name, rest, hrev⟩ := List.exists_cons_of_ne_nil (List.reverse_ne_nil_iff.mpr hne)
  rw [hrev] at hsettled
  have hname := hsettled.proper (List.mem_cons_self ..)
  have hrest := hsettled.tail hname.2.2
  obtain ⟨dir, hdir⟩ := exists_dirOf rest
  have hparts : parts p = rest.reverse ++ [name] := by
    rw [← List.reverse_cons, ← hrev, List.reverse_reverse]
  have habove : parts (dir ++ [47]) = rest.reverse := by
    rw [parts, ← hdir, foldl_splitOn_dirOf hrest]
  refine ⟨dir, name, ?_, (hsettled.names name (List.mem_cons_self ..)).2.2, ?_, ?_, ?_⟩
  · have hofParts : clean p = ofParts true (name :: rest) := by
      rw [clean_of_rooted hp, ofParts, List.reverse_cons, ← hparts]
      rfl
    rw [hofParts, ofParts_cons _ _ hname.1, hdir]
    simp
  · rw [← hdir]
    rfl
  · rw [hparts, habove]
  · cases rest with
    | nil => exact .inl (List.append_cancel_right (hdir.symm.trans (List.nil_append _).symm))
    | cons last rest =>
      have hlast := hrest.proper (List.mem_cons_self ..)
      refine .inr ⟨?_, by simp [habove]⟩
      rw [← hdir, clean_dirOf hrest]
      refine List.append_cancel_right (Eq.trans ?_ hdir)
      rw [ofParts_cons _ _ hlast.1, dirOf_cons]

/-- **The way down to a path** is the way down to its directory, and the path. -/
theorem chain_of_above {q name : List UInt8} (hq : q.head? = some 47)
    (hparts : parts p = parts q ++ [name]) (hne : parts q ≠ []) :
    chain p = chain q ++ [clean p] := by
  obtain ⟨names, last, hlast⟩ := List.eq_nil_or_concat' (parts q) |>.resolve_left hne
  have hinits : (parts q).inits.tail = names.inits.tail ++ [parts q] := by
    have hmem : [] ∈ names.inits := (List.mem_inits ..).mpr List.nil_prefix
    rw [hlast, List.inits_append, List.tail_append_of_ne_nil (List.ne_nil_of_mem hmem)]
    rfl
  have hancestors : ancestors p = chain q := by
    rw [chain, ancestors, ancestors, hparts, List.dropLast_concat, hinits, List.map_append,
      List.map_singleton, ← clean_of_rooted hq, hlast, List.dropLast_concat]
  rw [chain, hancestors]

end GoPath
