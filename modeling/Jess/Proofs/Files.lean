import Jess.Command.Folder

/-!
# Files of a folder

What is read is always the content of a listed file. A listed file is found by
following the parts of its own path, and nothing is found outside of the folder.
-/

namespace Jess.Command.Folder

variable {f : Folder} {bytes : List UInt8}

theorem follow_listed {place : Option (List String)} {route : List String}
    (found : f.follow place route = .ok bytes) : ∃ path, f.files.lookup path = some bytes := by
  induction route generalizing place with
  | nil => cases found
  | cons part rest ih =>
      unfold follow at found
      split at found
      · exact ih found
      split at found
      · exact ih found
      split at found
      · cases found
      cases place with
      | none => cases found
      | some place =>
          simp only at found
          split at found
          · rename_i content listed
            split at found
            · cases found
              exact ⟨_, listed⟩
            · cases found
          · split at found
            · exact ih found
            · cases found

/-- What is read is the content of a file of the folder, or of one of the root. -/
theorem read_listed {path : String} (found : f.read path = .ok bytes) :
    (∃ name, f.files.lookup name = some bytes) ∨ ∃ name, root.files.lookup name = some bytes := by
  unfold read at found
  split at found
  · cases found
  split at found
  · cases found
  split at found
  · exact .inr (follow_listed found)
  · exact .inl (follow_listed found)

theorem follow_outside (route : List String) : f.follow none route ≠ .ok bytes := by
  induction route with
  | nil => exact nofun
  | cons part rest ih =>
      intro found
      unfold follow at found
      split at found
      · exact ih found
      split at found
      · exact ih found
      split at found
      · cases found
      · cases found

/-- Parts of a path that lead deeper, and that are not too long. -/
def IsPlain (part : String) : Prop :=
  staysHere part = false ∧ part ≠ ".." ∧ part.utf8ByteSize ≤ maxPartSize

theorem hasFolder_of_listed {place rest : List String} {next : String} (inside : place ≠ [])
    (listed : f.files.lookup (String.intercalate "/" (place ++ next :: rest)) = some bytes) :
    f.hasFolder (String.intercalate "/" place) = true := by
  obtain ⟨before, after, split, _⟩ := List.lookup_eq_some_iff.mp listed
  have member : (String.intercalate "/" (place ++ next :: rest), bytes) ∈ f.files := by
    rw [split]
    exact List.mem_append_right _ (List.mem_cons_self ..)
  refine Bool.or_eq_true_iff.mpr (.inr (List.any_eq_true.mpr ⟨_, member, ?_⟩))
  rw [List.isPrefixOf_iff_prefix]
  simp only [String.intercalate_append_of_ne_nil inside (List.cons_ne_nil next rest),
    String.toList_append]
  exact List.prefix_append ..

theorem follow_part {place : List String} {part : String} (plain : IsPlain part)
    (rest : List String) :
    f.follow (some place) (part :: rest) =
      match f.files.lookup (String.intercalate "/" (place ++ [part])) with
      | some bytes => if rest.isEmpty then .ok bytes else .error .notDirectory
      | none =>
          if f.hasFolder (String.intercalate "/" (place ++ [part])) then
            f.follow (some (place ++ [part])) rest
          else .error .notFound := by
  obtain ⟨leaves, down, short⟩ := plain
  rw [follow, leaves, if_neg Bool.false_ne_true, if_neg down]
  exact if_neg (Nat.not_lt.mpr short)

/-- A file is found by following its own path, unless that goes on behind another file. -/
theorem follow_own {place route : List String} (more : route ≠ [])
    (plain : ∀ part ∈ route, IsPlain part)
    (listed : f.files.lookup (String.intercalate "/" (place ++ route)) = some bytes)
    (apart : ∀ front back, route = front ++ back → front ≠ [] → back ≠ [] →
      f.files.lookup (String.intercalate "/" (place ++ front)) = none) :
    f.follow (some place) route = .ok bytes := by
  induction route generalizing place with
  | nil => exact absurd rfl more
  | cons part rest ih =>
      rw [follow_part (plain part (List.mem_cons_self ..))]
      cases rest with
      | nil =>
          rw [listed]
          rfl
      | cons next rest =>
          have later : next :: rest ≠ [] := List.cons_ne_nil next rest
          have onTheWay := apart [part] (next :: rest) rfl (List.cons_ne_nil part []) later
          have joined : place ++ part :: next :: rest = place ++ [part] ++ next :: rest := by simp
          rw [joined] at listed
          have known := hasFolder_of_listed (by simp) listed
          simp only [onTheWay, known, if_true]
          refine ih later (fun part member => plain part (List.mem_cons_of_mem _ member)) listed ?_
          intro front back split inside behind
          have before := apart (part :: front) back (congrArg (part :: ·) split)
            (List.cons_ne_nil part front) behind
          rwa [List.append_assoc]

theorem intercalate_parts (path : String) : String.intercalate "/" (parts path) = path := by
  have back : String.toList ∘ String.ofList = id := funext fun _ => String.toList_ofList
  apply String.toList_inj.mp
  rw [String.toList_intercalate, parts, List.map_map, back, List.map_id]
  exact List.intercalate_splitOn '/'

theorem parts_ne_nil (path : String) : parts path ≠ [] := by
  rw [parts, ne_eq, List.map_eq_nil_iff]
  exact List.splitOn_ne_nil '/' path.toList

/-- The path of a listed file finds it, if it is plain and does not lead through another file. -/
theorem read_own {path : String} (relative : path.front ≠ '/')
    (short : path.utf8ByteSize ≤ maxPathSize) (plain : ∀ part ∈ parts path, IsPlain part)
    (listed : f.files.lookup path = some bytes)
    (apart : ∀ front back, parts path = front ++ back → front ≠ [] → back ≠ [] →
      f.files.lookup (String.intercalate "/" front) = none) : f.read path = .ok bytes := by
  have someText : ¬path.isEmpty = true := by
    intro empty
    obtain rfl := String.isEmpty_iff.mp empty
    have leads := (plain "" (by decide)).1
    cases leads
  rw [read, if_neg someText, if_neg (Nat.not_lt.mpr short), if_neg relative]
  apply follow_own (parts_ne_nil path) plain
  · rw [List.nil_append, intercalate_parts]
    exact listed
  · intro front back split inside behind
    rw [List.nil_append]
    exact apart front back split inside behind

/-- A path that leaves the folder finds nothing, even if it comes back later on. -/
theorem read_outside {path : String} {rest : List String} (notRoot : f.isRoot = false)
    (relative : path.front ≠ '/') (leaving : parts path = ".." :: rest) :
    f.read path ≠ .ok bytes := by
  intro found
  have stays : ¬staysHere ".." = true := by decide
  have above : f.above (some []) = none := by
    rw [Folder.above, notRoot]
    rfl
  rw [read, if_neg relative, leaving, follow, if_neg stays, if_pos rfl, above] at found
  split at found
  · cases found
  split at found
  · cases found
  exact follow_outside rest found

end Jess.Command.Folder
