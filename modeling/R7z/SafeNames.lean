import Mathlib.Tactic

/-! Names of entries as paths below an extraction directory. What a path is made of depends on the
platform; names are split at both kinds of separators everywhere. -/

namespace R7z

abbrev Text := List Char

inductive Platform where
  | unix
  | windows
deriving DecidableEq, Repr

def isSeparator (c : Char) : Bool := c == '/' || c == '\\'

def parts (name : Text) : List Text := name.splitOnP isSeparator

def startsWithSeparator (name : Text) : Bool := name.head?.any isSeparator

def hasDrive : Text → Bool
  | a :: b :: _ => a.isAlpha && b == ':'
  | _ => false

def hasWindowsPrefix (name : Text) : Bool := hasDrive name || ['\\', '\\'].isPrefixOf name

def hasParentComponent (name : Text) : Bool := (parts name).any fun part => part == ['.', '.']

/-- Put a part, which has no separators in it, behind a path. On Windows a part with a drive takes the
place of the path, and nothing is put between a bare drive and what follows. -/
def push : Platform → (path part : Text) → Text
  | .unix, path, part => if path = [] then part else path ++ '/' :: part
  | .windows, path, part =>
    if hasDrive part then part
    else if path = [] then part
    else if hasDrive path && path.length == 2 then path ++ part
    else path ++ '\\' :: part

structure UnsafePath where
  name : Text
deriving DecidableEq, Repr

def isUnsafe (name : Text) : Bool :=
  name.isEmpty || name.contains (Char.ofNat 0) || startsWithSeparator name || hasWindowsPrefix name ||
    hasParentComponent name

def normalizeParts (platform : Platform) (name : Text) : (path : Text) → List Text → Except UnsafePath Text
  | path, [] => .ok path
  | path, part :: rest =>
    if part = [] ∨ part = ['.'] then normalizeParts platform name path rest
    else if part = ['.', '.'] then .error ⟨name⟩
    else normalizeParts platform name (push platform path part) rest

def safeArchiveName (platform : Platform) (name : Text) : Except UnsafePath Text :=
  if isUnsafe name then .error ⟨name⟩
  else do
    let normalized ← normalizeParts platform name [] (parts name)
    if normalized = [] then .error ⟨name⟩ else .ok normalized

def kept (name : Text) : List Text := (parts name).filter fun part => part ≠ [] ∧ part ≠ ['.']

/-- What may be joined to an extraction directory, and is not changed by being looked at again. -/
structure SafePath (platform : Platform) (path : Text) : Prop where
  nonempty : path ≠ []
  relative : startsWithSeparator path = false
  normal : ∀ part ∈ parts path, part ≠ [] ∧ part ≠ ['.'] ∧ part ≠ ['.', '.']
  noPrefix : hasWindowsPrefix path = false
  again : safeArchiveName platform path = .ok path

/-! Splitting and joining -/

def joined (sep : Char) (part : Text) (rest : List Text) : Text := part ++ rest.flatMap (sep :: ·)

def Plain (part : Text) : Prop := ∀ c ∈ part, isSeparator c = false

theorem parts_plain (name : Text) : ∀ part ∈ parts name, Plain part ∧ ∀ c ∈ part, c ∈ name := by
  induction name with
  | nil =>
    intro part hpart
    rw [parts, List.splitOnP_nil, List.mem_singleton] at hpart
    subst hpart
    exact ⟨fun c hc => absurd hc List.not_mem_nil, fun c hc => absurd hc List.not_mem_nil⟩
  | cons a name ih =>
    obtain ⟨first, rest, hsplit⟩ := List.exists_cons_of_ne_nil (List.splitOnP_ne_nil isSeparator name)
    rw [parts, hsplit, List.forall_mem_cons] at ih
    obtain ⟨⟨hplain, hmem⟩, hrest⟩ := ih
    have hrest' : ∀ part ∈ rest, Plain part ∧ ∀ c ∈ part, c ∈ a :: name :=
      fun part hpart => ⟨(hrest part hpart).1, fun c hc => List.mem_cons_of_mem _ ((hrest part hpart).2 c hc)⟩
    rw [parts, List.splitOnP_cons_eq_if_modifyHead, hsplit]
    split
    · refine List.forall_mem_cons.mpr ⟨⟨fun c hc => absurd hc List.not_mem_nil,
        fun c hc => absurd hc List.not_mem_nil⟩, List.forall_mem_cons.mpr ⟨⟨hplain, ?_⟩, hrest'⟩⟩
      exact fun c hc => List.mem_cons_of_mem _ (hmem c hc)
    · rename_i ha
      refine List.forall_mem_cons.mpr ⟨⟨?_, ?_⟩, hrest'⟩
      · exact List.forall_mem_cons.mpr ⟨Bool.eq_false_iff.mpr ha, hplain⟩
      · exact List.forall_mem_cons.mpr ⟨List.mem_cons_self, fun c hc => List.mem_cons_of_mem _ (hmem c hc)⟩

theorem parts_joined {sep : Char} (hsep : isSeparator sep = true) {part : Text} {rest : List Text}
    (hpart : Plain part) (hrest : ∀ part ∈ rest, Plain part) : parts (joined sep part rest) = part :: rest := by
  induction rest generalizing part with
  | nil =>
    rw [joined, List.flatMap_nil, List.append_nil]
    exact List.splitOnP_eq_singleton hpart
  | cons next rest ih =>
    obtain ⟨hnext, hrest⟩ := List.forall_mem_cons.mp hrest
    have hmore := ih hnext hrest
    rw [joined, List.flatMap_cons, List.cons_append]
    exact (List.splitOnP_append_cons_of_forall_mem hpart sep hsep _).trans (congrArg (part :: ·) hmore)

/-! Drives -/

theorem hasDrive_append {sep : Char} (hsep : isSeparator sep = true) {path : Text} (hpath : path ≠ [])
    (rest : Text) : hasDrive (path ++ sep :: rest) = hasDrive path := by
  obtain _ | ⟨a, _ | ⟨b, path⟩⟩ := path
  · exact absurd rfl hpath
  · have hcolon : (sep == ':') = false := by
      rw [isSeparator, Bool.or_eq_true, beq_iff_eq, beq_iff_eq] at hsep
      rcases hsep with rfl | rfl <;> rfl
    show (a.isAlpha && sep == ':') = false
    rw [hcolon, Bool.and_false]
  · rfl

theorem hasDrive_joined {sep : Char} (hsep : isSeparator sep = true) {part : Text} (hpart : part ≠ [])
    (rest : List Text) : hasDrive (joined sep part rest) = hasDrive part := by
  obtain _ | ⟨next, rest⟩ := rest
  · rw [joined, List.flatMap_nil, List.append_nil]
  · rw [joined, List.flatMap_cons, List.cons_append]
    exact hasDrive_append hsep hpart _

def separator : Platform → Char
  | .unix => '/'
  | .windows => '\\'

theorem isSeparator_separator (platform : Platform) : isSeparator (separator platform) = true := by
  cases platform <;> rfl

theorem push_nil (platform : Platform) (part : Text) : push platform [] part = part := by
  cases platform with
  | unix => rw [push, if_pos rfl]
  | windows => rw [push, if_pos rfl, ite_self]

theorem foldl_push (platform : Platform) : ∀ (rest : List Text) (path : Text), path ≠ [] →
    (platform = .windows → hasDrive path = false ∧ ∀ part ∈ rest, hasDrive part = false) →
    rest.foldl (push platform) path = joined (separator platform) path rest
  | [], path, _, _ => (List.append_nil path).symm
  | part :: rest, path, hpath, hdrives => by
    have hsep := isSeparator_separator platform
    have hpush : push platform path part = path ++ separator platform :: part := by
      cases platform with
      | unix => exact if_neg hpath
      | windows =>
        obtain ⟨hfront, hrest⟩ := hdrives rfl
        rw [push, if_neg (by rw [hrest part List.mem_cons_self]; exact Bool.false_ne_true), if_neg hpath,
          hfront, Bool.false_and, if_neg Bool.false_ne_true]
        rfl
    rw [List.foldl_cons, hpush, foldl_push platform rest _ (List.append_ne_nil_of_left_ne_nil hpath _)]
    · rw [joined, joined, List.flatMap_cons, List.append_assoc]
    · intro hwindows
      obtain ⟨hfront, hrest⟩ := hdrives hwindows
      rw [hasDrive_append hsep hpath]
      exact ⟨hfront, fun part hpart => hrest part (List.mem_cons_of_mem _ hpart)⟩

/-- On Windows a drive in any part ends up at the front. -/
theorem foldl_push_drive : ∀ (rest : List Text) (path : Text),
    (hasDrive path = true ∨ ∃ part ∈ rest, hasDrive part = true) →
    hasDrive (rest.foldl (push .windows) path) = true
  | [], path, h => by
    rcases h with h | ⟨part, hpart, -⟩
    · exact h
    · exact absurd hpart List.not_mem_nil
  | part :: rest, path, h => by
    refine foldl_push_drive rest _ ?_
    by_cases hpart : hasDrive part = true
    · rw [push, if_pos hpart]
      exact .inl hpart
    rcases h with hpath | ⟨other, hother, hdrive⟩
    · left
      have hsome : path ≠ [] := fun hnil => by
        rw [hnil] at hpath
        exact Bool.false_ne_true hpath
      rw [push, if_neg hpart, if_neg hsome]
      obtain _ | ⟨a, _ | ⟨b, path⟩⟩ := path
      · exact absurd rfl hsome
      · exact absurd hpath Bool.false_ne_true
      · split <;> exact hpath
    · right
      rcases List.mem_cons.mp hother with rfl | hother
      · exact absurd hdrive hpart
      · exact ⟨other, hother, hdrive⟩

/-! The name as a whole -/

theorem normalizeParts_eq (platform : Platform) (name : Text) : ∀ (l : List Text) (path : Text),
    ['.', '.'] ∉ l → normalizeParts platform name path l =
      .ok ((l.filter fun part => part ≠ [] ∧ part ≠ ['.']).foldl (push platform) path)
  | [], path, _ => rfl
  | part :: rest, path, h => by
    obtain ⟨hpart, hrest⟩ := not_or.mp (fun hmem => h (List.mem_cons.mpr hmem))
    rw [normalizeParts]
    split
    · rename_i hdropped
      rw [normalizeParts_eq platform name rest path hrest, List.filter_cons_of_neg]
      simpa [or_iff_not_imp_left] using hdropped
    · rename_i hkept
      rw [if_neg (Ne.symm hpart), normalizeParts_eq platform name rest _ hrest, List.filter_cons_of_pos]
      · rfl
      · simpa [not_or] using hkept

theorem isUnsafe_eq_false {name : Text} : isUnsafe name = false ↔
    name ≠ [] ∧ Char.ofNat 0 ∉ name ∧ startsWithSeparator name = false ∧ hasWindowsPrefix name = false ∧
      ['.', '.'] ∉ parts name := by
  simp only [isUnsafe, hasParentComponent, Bool.or_eq_false_iff, and_assoc, List.isEmpty_eq_false_iff,
    List.contains_eq_mem, decide_eq_false_iff_not, List.any_eq_false, beq_iff_eq]
  refine and_congr_right fun _ => and_congr_right fun _ => and_congr_right fun _ => and_congr_right fun _ => ?_
  exact ⟨fun h hmem => h _ hmem rfl, fun h part hpart hdots => h (hdots ▸ hpart)⟩

theorem safeArchiveName_eq (platform : Platform) {name : Text} (h : isUnsafe name = false) :
    safeArchiveName platform name =
      if (kept name).foldl (push platform) [] = [] then .error ⟨name⟩
      else .ok ((kept name).foldl (push platform) []) := by
  have hparent : ['.', '.'] ∉ parts name := (isUnsafe_eq_false.mp h).2.2.2.2
  rw [safeArchiveName, if_neg (by rw [h]; exact Bool.false_ne_true),
    normalizeParts_eq platform name _ _ hparent]
  rfl

theorem mem_kept {name part : Text} :
    part ∈ kept name ↔ part ∈ parts name ∧ part ≠ [] ∧ part ≠ ['.'] := by
  rw [kept, List.mem_filter, decide_eq_true_iff]

/-- Where a drive in front of a part reaches the front of the path. -/
def exposedDrive : Platform → Text → Bool
  | .unix, name => (kept name).head?.any hasDrive
  | .windows, name => (kept name).any hasDrive

/-- Parts put behind each other are a safe path, unless they bring a drive to its front. -/
theorem safePath_joined (platform : Platform) {name first : Text} {rest : List Text}
    (hsafe : isUnsafe name = false) (hkept : kept name = first :: rest) (hdrive : hasDrive first = false)
    (hrest : platform = .windows → ∀ part ∈ rest, hasDrive part = false) :
    SafePath platform (joined (separator platform) first rest) := by
  have hsep := isSeparator_separator platform
  -- a part that is kept is plain, and part of the name
  have hparts : ∀ part ∈ first :: rest, Plain part ∧ (∀ c ∈ part, c ∈ name) ∧
      part ≠ [] ∧ part ≠ ['.'] ∧ part ≠ ['.', '.'] := by
    intro part hpart
    rw [← hkept, mem_kept] at hpart
    obtain ⟨hpart, hnil, hdot⟩ := hpart
    obtain ⟨hplain, hmem⟩ := parts_plain name part hpart
    refine ⟨hplain, hmem, hnil, hdot, ?_⟩
    rintro rfl
    exact (isUnsafe_eq_false.mp hsafe).2.2.2.2 hpart
  obtain ⟨hplain, hmem, hnil, -⟩ := hparts first List.mem_cons_self
  have hsplit : parts (joined (separator platform) first rest) = first :: rest :=
    parts_joined hsep hplain fun part hpart => (hparts part (List.mem_cons_of_mem _ hpart)).1
  have hnonempty : joined (separator platform) first rest ≠ [] := List.append_ne_nil_of_left_ne_nil hnil _
  obtain ⟨a, tail, rfl⟩ := List.exists_cons_of_ne_nil hnil
  have ha : isSeparator a = false := hplain a List.mem_cons_self
  have hrelative : startsWithSeparator (joined (separator platform) (a :: tail) rest) = false := ha
  have hprefix : hasWindowsPrefix (joined (separator platform) (a :: tail) rest) = false := by
    have hback : ('\\' == a) = false := by
      rw [isSeparator, Bool.or_eq_false_iff, beq_eq_false_iff_ne, beq_eq_false_iff_ne] at ha
      exact beq_eq_false_iff_ne.mpr ha.2.symm
    rw [hasWindowsPrefix, hasDrive_joined hsep hnil, hdrive, Bool.false_or]
    show ('\\' == a && _) = false
    rw [hback, Bool.false_and]
  have hnul : Char.ofNat 0 ∉ joined (separator platform) (a :: tail) rest := by
    have hname : Char.ofNat 0 ∉ name := (isUnsafe_eq_false.mp hsafe).2.1
    rw [joined, List.mem_append, List.mem_flatMap]
    rintro (hc | ⟨part, hpart, hc⟩)
    · exact hname (hmem _ hc)
    · rcases List.mem_cons.mp hc with hc | hc
      · rw [← hc] at hsep
        exact Bool.false_ne_true hsep
      · exact hname ((hparts part (List.mem_cons_of_mem _ hpart)).2.1 _ hc)
  have hparent : ['.', '.'] ∉ parts (joined (separator platform) (a :: tail) rest) := by
    rw [hsplit]
    exact fun hmem => (hparts _ hmem).2.2.2.2 rfl
  have hchecks : isUnsafe (joined (separator platform) (a :: tail) rest) = false :=
    isUnsafe_eq_false.mpr ⟨hnonempty, hnul, hrelative, hprefix, hparent⟩
  -- the path is taken apart into the same parts, so a second look changes nothing
  have hagain : kept (joined (separator platform) (a :: tail) rest) = (a :: tail) :: rest := by
    rw [kept, hsplit, List.filter_eq_self]
    intro part hpart
    obtain ⟨-, -, hnil, hdot, -⟩ := hparts part hpart
    exact decide_eq_true ⟨hnil, hdot⟩
  refine ⟨hnonempty, hrelative, ?_, hprefix, ?_⟩
  · rw [hsplit]
    exact fun part hpart => (hparts part hpart).2.2
  · rw [safeArchiveName_eq platform hchecks, hagain, List.foldl_cons, push_nil,
      foldl_push platform rest _ hnil fun hwindows => ⟨hdrive, hrest hwindows⟩, if_neg hnonempty]

/-- What comes out is a safe path, for exactly the names that are refused for what they are, that have no
part to keep, or that have no drive in front of a part that becomes the front of the path. The check for
a drive is made before parts are dropped. -/
theorem safe_names_iff (platform : Platform) (name : Text) :
    (∀ path, safeArchiveName platform name = .ok path → SafePath platform path) ↔
      (isUnsafe name = true ∨ kept name = [] ∨ exposedDrive platform name = false) := by
  cases hsafe : isUnsafe name with
  | true =>
    refine iff_of_true (fun path h => ?_) (.inl rfl)
    rw [safeArchiveName, if_pos hsafe] at h
    cases h
  | false =>
    rw [safeArchiveName_eq platform hsafe]
    rcases hkept : kept name with _ | ⟨first, rest⟩
    · exact iff_of_true (fun path h => by cases h) (.inr (.inl rfl))
    have hfirst : first ≠ [] := (mem_kept.mp (hkept ▸ List.mem_cons_self)).2.1
    rw [List.foldl_cons, push_nil]
    cases hexposed : exposedDrive platform name with
    | false =>
      refine iff_of_true (fun path h => ?_) (.inr (.inr rfl))
      have hdrives : hasDrive first = false ∧ (platform = .windows → ∀ part ∈ rest, hasDrive part = false) := by
        cases platform with
        | unix =>
          rw [exposedDrive, hkept] at hexposed
          exact ⟨hexposed, fun hwindows => by cases hwindows⟩
        | windows =>
          rw [exposedDrive, hkept, List.any_cons, Bool.or_eq_false_iff, List.any_eq_false] at hexposed
          exact ⟨hexposed.1, fun _ part hpart => Bool.eq_false_iff.mpr (hexposed.2 part hpart)⟩
      have hsome : joined (separator platform) first rest ≠ [] :=
        List.append_ne_nil_of_left_ne_nil hfirst _
      rw [foldl_push platform rest first hfirst fun hwindows => ⟨hdrives.1, hdrives.2 hwindows⟩,
        if_neg hsome] at h
      cases h
      exact safePath_joined platform hsafe hkept hdrives.1 hdrives.2
    | true =>
      -- the drive comes to the front, where the first look did not see it
      have hfront : hasDrive (rest.foldl (push platform) first) = true := by
        cases platform with
        | unix =>
          rw [exposedDrive, hkept] at hexposed
          rw [foldl_push .unix rest first hfirst (fun hwindows => by cases hwindows),
            hasDrive_joined rfl hfirst]
          exact hexposed
        | windows =>
          rw [exposedDrive, hkept, List.any_cons, Bool.or_eq_true, List.any_eq_true] at hexposed
          exact foldl_push_drive rest first hexposed
      have hsome : rest.foldl (push platform) first ≠ [] := fun hnil => by
        rw [hnil] at hfront
        exact Bool.false_ne_true hfront
      refine iff_of_false (fun h => ?_) (fun h => ?_)
      · have hprefix := (h _ (if_neg hsome)).noPrefix
        rw [hasWindowsPrefix, hfront, Bool.true_or] at hprefix
        exact Bool.false_ne_true hprefix.symm
      · rcases h with h | h | h
        · exact Bool.false_ne_true h
        · exact List.cons_ne_nil _ _ h
        · exact Bool.false_ne_true h.symm

/-- A drive behind a dot is let through, and refused when it is looked at again. -/
theorem drive_behind_dot :
    safeArchiveName .unix ['.', '/', 'C', ':', 'x'] = .ok ['C', ':', 'x'] ∧
      ¬SafePath .unix ['C', ':', 'x'] ∧
      safeArchiveName .unix ['C', ':', 'x'] = .error ⟨['C', ':', 'x']⟩ := by
  refine ⟨by decide +kernel, fun h => ?_, by decide +kernel⟩
  exact absurd h.noPrefix (by decide +kernel)

end R7z
