import Mathlib.Data.List.Infix

/-!
Owns the paths of the update engine `ota-update.sh`: how a path is resolved, where
`dest_for` installs a file of the manifest, and what `validate_file_list` and
`phase_stage` accept.

A text is a list of characters, which stand for the bytes of a shell string. A
resolved path is the list of its components.
-/

namespace MagnetoX.Ota

open List

abbrev Text := List Char

abbrev Path := List Text

def dot : Text := ['.']

def dotdot : Text := ['.', '.']

/-- Walk one component further, without symbolic links. -/
def push (path : Path) (component : Text) : Path :=
  if component = [] ∨ component = dot then path
  else if component = dotdot then path.dropLast
  else path ++ [component]

def resolve (path : Text) : Path := (path.splitOn '/').foldl push []

/-- A component that names an entry of its directory. -/
def IsName (component : Text) : Prop :=
  component ≠ [] ∧ component ≠ dot ∧ component ≠ dotdot

instance (component : Text) : Decidable (IsName component) :=
  inferInstanceAs (Decidable (_ ∧ _ ∧ _))

def names (path : Text) : Path := (path.splitOn '/').filter (fun component => IsName component)

theorem resolve_append (directory path : Text) :
    resolve (directory ++ '/' :: path) = (path.splitOn '/').foldl push (resolve directory) := by
  unfold resolve
  rw [splitOn_append_cons_self, foldl_append]

theorem foldl_push {components : List Text} (start : Path) (stays : dotdot ∉ components) :
    components.foldl push start = start ++ components.filter (fun component => IsName component) := by
  induction components generalizing start with
  | nil => simp
  | cons component components ih =>
    rw [mem_cons, not_or] at stays
    obtain ⟨other, rest⟩ := stays
    rw [foldl_cons, ih _ rest, push]
    by_cases skipped : component = [] ∨ component = dot
    · have unnamed : ¬ IsName component := by
        intro named
        rcases skipped with empty | here
        · exact named.1 empty
        · exact named.2.1 here
      rw [if_pos skipped, filter_cons_of_neg (by simpa using unnamed)]
    · have named : IsName component :=
        ⟨fun empty => skipped (.inl empty), fun here => skipped (.inr here), Ne.symm other⟩
      rw [if_neg skipped, if_neg (Ne.symm other), filter_cons_of_pos (by simpa using named),
        append_assoc]
      rfl

theorem resolve_below {path : Text} (directory : Text) (stays : dotdot ∉ path.splitOn '/') :
    resolve (directory ++ '/' :: path) = resolve directory ++ names path := by
  rw [resolve_append, foldl_push _ stays, names]

def OTA_HOME : Text := "/home/pi/magneto-ota".toList
def DEST_CONFIG : Text := "/home/pi/printer_data/config".toList
def DEST_AUTO_UUID : Text := "/home/pi/auto-uuid".toList
def DEST_KS_PANELS : Text := "/home/pi/KlipperScreen/panels".toList
def DEST_OTA : Text := OTA_HOME

def DENYLIST_BASENAMES : List Text := ["printer.cfg".toList, "magneto_device.cfg".toList]

/-- A top-level directory of the payload and where its files are installed. -/
structure Root where
  key : Text
  directory : Text
deriving DecidableEq, Repr

def roots : List Root :=
  [⟨"config".toList, DEST_CONFIG⟩, ⟨"auto-uuid".toList, DEST_AUTO_UUID⟩,
    ⟨"KlipperScreen".toList, DEST_KS_PANELS⟩, ⟨"ota".toList, DEST_OTA⟩]

/-- Map a payload-relative path to its absolute install destination. -/
def destFor (rel : Text) : Option Text :=
  (roots.find? (fun root => (root.key ++ ['/']).isPrefixOf rel)).map
    (fun root => root.directory ++ '/' :: rel.drop (root.key.length + 1))

def basename (path : Text) : Text :=
  match ((path.splitOn '/').filter (fun component => component ≠ [])).getLast? with
  | some component => component
  | none => if path = [] then [] else ['/']

/-- The patterns of a path escape: `*../*`, `*/..` and `..`. -/
def Escapes (rel : Text) : Prop :=
  (dotdot ++ ['/']) <:+: rel ∨ ('/' :: dotdot) <:+ rel ∨ rel = dotdot

instance (rel : Text) : Decidable (Escapes rel) := inferInstanceAs (Decidable (_ ∨ _ ∨ _))

/-- One round of `validate_file_list`. The error is the text of `die`. -/
def validateFile (rel : Text) : Except Text Unit :=
  if rel = [] then .ok ()
  else if ['/'].isPrefixOf rel then .error ("manifest contains absolute path: ".toList ++ rel)
  else if Escapes rel then .error ("manifest contains path escape: ".toList ++ rel)
  else if basename rel ∈ DENYLIST_BASENAMES then
    .error ("manifest contains denylisted per-printer file: ".toList ++ rel ++
      " — refusing to continue".toList)
  else if destFor rel = none then
    .error ("manifest contains path outside known install roots: ".toList ++ rel)
  else .ok ()

/-- Reject absolute paths, parent-directory escapes, and the identity denylist. -/
def validateFileList : List Text → Except Text Unit
  | [] => .ok ()
  | rel :: rest => (validateFile rel).bind (fun _ => validateFileList rest)

/-- The test for a regular file. A path that ends in a slash, `.` or `..` does not name
one, whatever the file system holds. -/
structure FileTest where
  isFile : Text → Bool
  named : ∀ path, isFile path = true → ∀ last, (path.splitOn '/').getLast? = some last → IsName last

def checkTop : List Text → Except Text Unit
  | [] => .ok ()
  | top :: rest =>
      if top ∈ roots.map Root.key then checkTop rest
      else .error ("payload contains unexpected top-level entry: ".toList ++ top)

def checkPresent (test : FileTest) (payloadDir : Text) : List Text → Except Text Unit
  | [] => .ok ()
  | rel :: rest =>
      if test.isFile (payloadDir ++ '/' :: rel) then checkPresent test payloadDir rest
      else .error ("manifest lists ".toList ++ rel ++ " but it is missing from the payload".toList)

/-- The checks of `phase_stage` on the top level of the payload and on the files of
the manifest. -/
def phaseStage (test : FileTest) (payloadDir : Text) (tops files : List Text) : Except Text Unit :=
  (checkTop tops).bind (fun _ =>
    (validateFileList files).bind (fun _ => checkPresent test payloadDir files))

variable {rel payloadDir : Text} {files tops : List Text} {test : FileTest} {root : Root}

theorem validateFileList_ok (accepts : validateFileList files = .ok ())
    (member : rel ∈ files) : validateFile rel = .ok () := by
  induction files with
  | nil => cases member
  | cons first rest ih =>
    rw [validateFileList] at accepts
    cases valid : validateFile first with
    | error message =>
      rw [valid] at accepts
      cases accepts
    | ok _ =>
      rw [valid] at accepts
      rcases mem_cons.mp member with rfl | later
      · exact valid
      · exact ih accepts later

theorem checkPresent_ok
    (accepts : checkPresent test payloadDir files = .ok ()) (member : rel ∈ files) :
    test.isFile (payloadDir ++ '/' :: rel) = true := by
  induction files with
  | nil => cases member
  | cons first rest ih =>
    rw [checkPresent] at accepts
    split at accepts
    · rename_i present
      rcases mem_cons.mp member with rfl | later
      · exact present
      · exact ih accepts later
    · cases accepts

/-- What follows some components in a path, with the slash before it. -/
theorem intercalate_suffix (before : List Text) (component : Text) (after : List Text) :
    (before = [] ∧
      ['/'].intercalate (before ++ component :: after) = ['/'].intercalate (component :: after)) ∨
    ('/' :: ['/'].intercalate (component :: after)) <:+
      ['/'].intercalate (before ++ component :: after) := by
  induction before with
  | nil => exact .inl ⟨rfl, rfl⟩
  | cons first before ih =>
    right
    have joined : ['/'].intercalate (first :: (before ++ component :: after)) =
        first ++ ('/' :: ['/'].intercalate (before ++ component :: after)) := by
      cases before <;> simp [intercalate]
    rw [cons_append, joined]
    rcases ih with ⟨_, same⟩ | suffix
    · rw [same]
      exact suffix_append first _
    · exact suffix.trans ((suffix_cons '/' _).trans (suffix_append first _))

/-- The patterns find every `..` component. -/
theorem escapes_of_mem (member : dotdot ∈ rel.splitOn '/') : Escapes rel := by
  obtain ⟨before, after, split⟩ := append_of_mem member
  have whole : ['/'].intercalate (before ++ dotdot :: after) = rel := by
    rw [← split]
    exact intercalate_splitOn '/'
  have suffix := intercalate_suffix before dotdot after
  rw [whole] at suffix
  cases after with
  | nil =>
    right
    rcases suffix with ⟨_, same⟩ | suffix
    · exact .inr same
    · exact .inl suffix
  | cons next after =>
    left
    have begins : (dotdot ++ ['/']) <+: ['/'].intercalate (dotdot :: next :: after) := by
      refine ⟨['/'].intercalate (next :: after), ?_⟩
      simp [intercalate, dotdot]
    rcases suffix with ⟨_, same⟩ | suffix
    · rw [same]
      exact begins.isInfix
    · exact begins.isInfix.trans ((suffix_cons '/' _).trans suffix).isInfix

theorem destFor_eq_some {dest : Text} (maps : destFor rel = some dest) :
    ∃ root ∈ roots, ∃ rest, rel = root.key ++ '/' :: rest ∧
      dest = root.directory ++ '/' :: rest := by
  obtain ⟨root, found, rfl⟩ := Option.map_eq_some_iff.mp maps
  have matches_root : (root.key ++ ['/']).isPrefixOf rel = true := by
    have own := find?_some found
    exact own
  obtain ⟨rest, rfl⟩ := isPrefixOf_iff_prefix.mp matches_root
  refine ⟨root, mem_of_find?_eq_some found, rest, by simp, ?_⟩
  have dropped : ((root.key ++ ['/']) ++ rest).drop (root.key.length + 1) = rest :=
    drop_left' (by simp)
  rw [dropped]

/-- No key of a root has a slash. -/
theorem splitOn_root (isRoot : root ∈ roots) (rest : Text) :
    (root.key ++ '/' :: rest).splitOn '/' = root.key :: rest.splitOn '/' := by
  have plain : '/' ∉ root.key := by
    revert root
    decide
  rw [splitOn_append_cons_self, splitOn_eq_singleton plain]
  rfl

/-- No key of a root begins with another one. -/
theorem destFor_root (isRoot : root ∈ roots) (rest : Text) :
    destFor (root.key ++ '/' :: rest) = some (root.directory ++ '/' :: rest) := by
  simp only [roots, mem_cons, not_mem_nil, or_false] at isRoot
  rcases isRoot with rfl | rfl | rfl | rfl <;> rfl

/-- An accepted entry: it goes below a root, and it ends in a name that is not on the
denylist. -/
structure Installs (rel : Text) (root : Root) (rest : Text) : Prop where
  isRoot : root ∈ roots
  entry : rel = root.key ++ '/' :: rest
  stays : dotdot ∉ rest.splitOn '/'
  last : ∃ last, (rest.splitOn '/').getLast? = some last ∧ IsName last ∧
    last ∉ DENYLIST_BASENAMES

def place (rel : Text) : Path := resolve ((destFor rel).getD [])

section Installs

variable {rest : Text}

section

variable (installs : Installs rel root rest)
include installs

theorem Installs.destFor_eq :
    destFor rel = some (root.directory ++ '/' :: rest) := by
  rw [installs.entry]
  exact destFor_root installs.isRoot rest

theorem Installs.place_eq :
    place rel = resolve root.directory ++ names rest := by
  rw [place, installs.destFor_eq, Option.getD_some, resolve_below _ installs.stays]

theorem Installs.getLast?_names :
    ∃ last, (names rest).getLast? = some last ∧ IsName last ∧ last ∉ DENYLIST_BASENAMES := by
  obtain ⟨last, isLast, named, allowed⟩ := installs.last
  refine ⟨last, ?_, named, allowed⟩
  obtain ⟨before, split⟩ := getLast?_eq_some_iff.mp isLast
  rw [names, split, filter_append, filter_cons_of_pos (by simpa using named)]
  simp

end

end Installs

theorem getLast?_splitOn_append (directory path : Text) :
    ((directory ++ '/' :: path).splitOn '/').getLast? = (path.splitOn '/').getLast? := by
  rw [splitOn_append_cons_self, getLast?_append_of_ne_nil _ (splitOn_ne_nil _ _)]

theorem basename_of_last {path last : Text} (isLast : (path.splitOn '/').getLast? = some last)
    (named : IsName last) : basename path = last := by
  obtain ⟨before, split⟩ := getLast?_eq_some_iff.mp isLast
  have kept : ((path.splitOn '/').filter (fun component => component ≠ [])).getLast? = some last := by
    rw [split, filter_append, filter_cons_of_pos (by simpa using named.1)]
    simp
  rw [basename, kept]

/-- **Every entry that `phase_stage` lets pass is installed below a root**, under a name
that is not on the denylist. -/
theorem phaseStage_installs
    (accepts : phaseStage test payloadDir tops files = .ok ()) (member : rel ∈ files) :
    ∃ root rest, Installs rel root rest := by
  unfold phaseStage at accepts
  cases tops : checkTop tops with
  | error message =>
    rw [tops] at accepts
    cases accepts
  | ok _ =>
    rw [tops] at accepts
    cases valid : validateFileList files with
    | error message =>
      rw [Except.bind, valid] at accepts
      cases accepts
    | ok _ =>
      rw [Except.bind, valid] at accepts
      have isFile := checkPresent_ok accepts member
      have accepted := validateFileList_ok valid member
      obtain ⟨last, isLast⟩ : ∃ last, (rel.splitOn '/').getLast? = some last :=
        ⟨_, getLast?_eq_some_getLast (splitOn_ne_nil '/' rel)⟩
      have named : IsName last := by
        apply test.named _ isFile
        rw [getLast?_splitOn_append]
        exact isLast
      -- An empty entry would be the payload directory itself.
      have nonempty : rel ≠ [] := by
        rintro rfl
        cases isLast
        exact named.1 rfl
      unfold validateFile at accepted
      rw [if_neg nonempty] at accepted
      split at accepted
      · cases accepted
      · split at accepted
        · cases accepted
        · rename_i stays
          split at accepted
          · cases accepted
          · rename_i allowed
            split at accepted
            · cases accepted
            · rename_i maps
              obtain ⟨dest, isDest⟩ := Option.ne_none_iff_exists'.mp maps
              obtain ⟨root, isRoot, rest, rfl, -⟩ := destFor_eq_some isDest
              rw [basename_of_last isLast named] at allowed
              refine ⟨root, rest, isRoot, rfl, ?_, last, ?_, named, allowed⟩
              · intro up
                apply stays
                apply escapes_of_mem
                rw [splitOn_root isRoot]
                exact .tail _ up
              · rw [getLast?_splitOn_append] at isLast
                exact isLast

end MagnetoX.Ota
