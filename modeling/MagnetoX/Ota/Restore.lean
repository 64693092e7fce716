import MagnetoX.Ota.Rules

/-!
Owns `restore_from_backup`: what a backup directory records, and that a restore that
completes puts exactly that back, from whatever state the files are in. At every point
on the way nothing but the files of the backup and their temporary names changes.
-/

namespace MagnetoX.Ota

open Library.CrashLogic Library.CrashLogic.Prog List

abbrev View := Path → Option Content

/-! ### What changes -/

def Allowed (places : List Path) (path : Path) : Prop :=
  Own path ∨ path ∈ places ∨ ∃ installed ∈ places, Plain installed ∧ path = tempOf installed

/-- Only the files at the given places and temporary files have changed. -/
structure Frame (places : List Path) (before after : Machine) : Prop where
  own : ∀ path, Own path → path ∉ places →
    after.files.lookup path = before.files.lookup path
  backups : below after.files (resolve BACKUP_ROOT) = below before.files (resolve BACKUP_ROOT)
  plain : ∀ path, Plain path → path ∉ places →
    after.files.lookup path = before.files.lookup path
  touched : ∀ path ∈ after.touched, path ∈ before.touched ∨ Allowed places path

/-- Nothing else has been reported than a failure. -/
structure Within (places : List Path) (before after : Machine) : Prop
    extends Frame places before after where
  status : Failing before.status after.status

variable {path entry directory : Path} {files : Files}

section Within

variable {places more : List Path} {before middle after : Machine}

theorem Frame.refl (places : List Path) (machine : Machine) : Frame places machine machine :=
  ⟨fun _ _ _ => rfl, rfl, fun _ _ _ => rfl, fun _ member => .inl member⟩

theorem Frame.trans (first : Frame places before middle) (second : Frame places middle after) :
    Frame places before after where
  own path isOwn outside := (second.own path isOwn outside).trans (first.own path isOwn outside)
  backups := second.backups.trans first.backups
  plain path isPlain outside :=
    (second.plain path isPlain outside).trans (first.plain path isPlain outside)
  touched path member := by
    rcases second.touched path member with earlier | allowed
    · exact first.touched path earlier
    · exact .inr allowed

theorem Frame.mono (frame : Frame places before after)
    (subset : ∀ path ∈ places, path ∈ more) : Frame more before after where
  own path isOwn outside := frame.own path isOwn (fun member => outside (subset path member))
  backups := frame.backups
  plain path isPlain outside :=
    frame.plain path isPlain (fun member => outside (subset path member))
  touched path member := by
    rcases frame.touched path member with earlier | isOwn | isPlace | ⟨installed, inside, plain, rfl⟩
    · exact .inl earlier
    · exact .inr (.inl isOwn)
    · exact .inr (.inr (.inl (subset path isPlace)))
    · exact .inr (.inr (.inr ⟨installed, subset installed inside, plain, rfl⟩))

theorem Frame.withStatus (frame : Frame places before after) (status : Option Status) :
    Frame places before (after.withStatus status) :=
  { frame with }

theorem Frame.touch (own : Own path) (machine : Machine) :
    Frame places machine (machine.touch path) where
  own _ _ _ := rfl
  backups := rfl
  plain _ _ _ := rfl
  touched other member := by
    rcases mem_cons.mp member with rfl | earlier
    · exact .inr (.inl own)
    · exact .inl earlier

theorem Within.refl (places : List Path) (machine : Machine) : Within places machine machine :=
  ⟨.refl _ _, .refl _⟩

theorem Within.trans (first : Within places before middle) (second : Within places middle after) :
    Within places before after :=
  ⟨first.toFrame.trans second.toFrame, first.status.trans second.status⟩

theorem Within.mono (within : Within places before after)
    (subset : ∀ path ∈ places, path ∈ more) : Within more before after :=
  ⟨within.toFrame.mono subset, within.status⟩

theorem Within.withStatus (within : Within places before after) (status : Option Status)
    (failing : Failing after.status status) : Within places before (after.withStatus status) :=
  ⟨within.toFrame.withStatus status, within.status.trans failing⟩

theorem Within.touch (own : Own path) (machine : Machine) :
    Within places machine (machine.touch path) :=
  ⟨.touch own machine, .refl _⟩

theorem Within.at_place (within : Within places before middle)
    (isPlace : path ∈ places) (changes : Within [path] middle after) :
    Within places before after := by
  apply within.trans
  apply changes.mono
  intro other member
  rw [mem_singleton.mp member]
  exact isPlace

/-- Where a script stops, only the places have changed. -/
abbrev stopping {α : Type} (places : List Path) (before : Machine) (returns : α → Machine → Prop) :
    Ends Machine α :=
  ⟨returns, fun code after => code = 1 ∧ Within places before after, Within places before⟩

theorem Within.stops {α : Type} {returns : α → Machine → Prop} :
    Stops (stopping places before returns) :=
  fun _ status within failing => ⟨rfl, within.withStatus status failing⟩

end Within

/-! ### Files below a directory -/

section Below

variable {files : Files} {directory : Path} {content : Content}

theorem filter_erase_of_neg {κ : Type} [DecidableEq κ] {keep : κ → Bool} {key : κ}
    (dropped : keep key = false) (keys : List κ) :
    (keys.erase key).filter keep = keys.filter keep := by
  induction keys with
  | nil => rfl
  | cons first keys ih =>
    by_cases same : first = key
    · rw [same, erase_cons_head, filter_cons_of_neg (by simp [dropped])]
    · rw [erase_cons_tail (by simpa using same), filter_cons, filter_cons, ih]

theorem isPrefixOf_eq_false (outside : ¬ directory <+: path) :
    directory.isPrefixOf path = false := by
  rw [← Bool.not_eq_true, isPrefixOf_iff_prefix]
  exact outside

theorem below_insert (outside : ¬ directory <+: path) :
    below (files.insert path content) directory = below files directory := by
  have fails := isPrefixOf_eq_false outside
  unfold below
  rw [AList.keys_insert, filter_cons_of_neg (by rw [fails]; decide), filter_erase_of_neg fails]

theorem below_erase (outside : ¬ directory <+: path) :
    below (files.erase path) directory = below files directory := by
  unfold below
  rw [AList.keys_erase, filter_erase_of_neg (isPrefixOf_eq_false outside)]

theorem mem_below :
    entry ∈ below files directory ↔ ∃ content, files.lookup (directory ++ entry) = some content := by
  unfold below
  rw [mem_map]
  constructor
  · rintro ⟨path, member, rfl⟩
    obtain ⟨isKey, begins⟩ := mem_filter.mp member
    obtain ⟨entry, rfl⟩ := isPrefixOf_iff_prefix.mp begins
    rw [drop_left]
    exact Option.isSome_iff_exists.mp (AList.lookup_isSome.mpr (AList.mem_keys.mpr isKey))
  · rintro ⟨content, present⟩
    refine ⟨directory ++ entry, mem_filter.mpr ⟨?_, ?_⟩, drop_left⟩
    · apply AList.mem_keys.mp
      apply AList.lookup_isSome.mp
      rw [present]
      rfl
    · exact isPrefixOf_iff_prefix.mpr (prefix_append directory entry)

end Below

/-! ### `atomic_install` -/

section Install

variable {medium : Medium} {machine : Machine} {content : Content}

theorem Plain.ne_tempOf (plain : Plain path) (other : Path) : path ≠ tempOf other := by
  intro same
  rw [same] at plain
  exact tempOf_not_plain other plain

theorem tempOf_not_below (plain : Plain path) : ¬ resolve BACKUP_ROOT <+: tempOf path := by
  intro isBelow
  exact Own.not_tempOf plain.notOwn (Own.of_backup isBelow)

theorem Plain.not_below (plain : Plain path) : ¬ resolve BACKUP_ROOT <+: path :=
  fun isBelow => plain.notOwn (Own.of_backup isBelow)

theorem within_touch_install (isPlain : Plain path) (files : Files) (paths : List Path)
    (inside : ∀ other ∈ paths, other = path ∨ other = tempOf path)
    (own : ∀ other, Own other → files.lookup other = machine.files.lookup other)
    (backups : below files (resolve BACKUP_ROOT) = below machine.files (resolve BACKUP_ROOT))
    (plain : ∀ other, Plain other → other ≠ path →
      files.lookup other = machine.files.lookup other) :
    Within [path] machine (machine.update files paths) where
  own other isOwn _ := own other isOwn
  backups := backups
  plain other isPlain outside :=
    plain other isPlain (fun same => outside (mem_singleton.mpr same))
  touched other member := by
    rcases mem_append.mp member with new | earlier
    · right
      right
      rcases inside other new with same | same
      · exact .inl (mem_singleton.mpr same)
      · exact .inr ⟨path, mem_singleton.mpr rfl, isPlain, same⟩
    · exact .inl earlier
  status := .refl _

section

variable (plain : Plain path)
include plain

theorem within_write_temp :
    Within [path] machine (machine.write (tempOf path) content) := by
  apply within_touch_install plain
  · simp
  · intro other own
    apply AList.lookup_insert_ne
    rintro rfl
    exact Own.not_tempOf plain.notOwn own
  · exact below_insert (tempOf_not_below plain)
  · intro other isPlain _
    exact AList.lookup_insert_ne (isPlain.ne_tempOf path)

theorem within_look (paths : List Path)
    (inside : ∀ other ∈ paths, other = path ∨ other = tempOf path) :
    Within [path] machine (machine.update machine.files paths) :=
  within_touch_install plain _ paths inside (fun _ _ => rfl) rfl (fun _ _ _ => rfl)

theorem within_touch_temp :
    Within [path] machine (machine.touch (tempOf path)) :=
  within_look plain _ (by simp)

theorem within_rename_touch :
    Within [path] machine (machine.update machine.files [tempOf path, path]) :=
  within_look plain _ (by simp)

theorem within_rename :
    Within [path] machine (machine.update ((machine.files.erase (tempOf path)).insert path content)
        [tempOf path, path]) := by
  apply within_touch_install plain
  · simp
  · intro other own
    rw [AList.lookup_insert_ne, AList.lookup_erase_ne]
    · rintro rfl
      exact Own.not_tempOf plain.notOwn own
    · rintro rfl
      exact plain.notOwn own
  · rw [below_insert plain.not_below, below_erase (tempOf_not_below plain)]
  · intro other isPlain different
    rw [AList.lookup_insert_ne different, AList.lookup_erase_ne (isPlain.ne_tempOf path)]

end

/-- **`atomic_install`** changes nothing but its destination and the temporary file; if it
succeeds, the destination has the content of the source. -/
theorem atomicInstall_wp {rel dest : Text} (ordinary : Ordinary rel)
    (isDest : destFor rel = some dest) {source : Script (Option Content)}
    {value : Option Content}
    (reads : source.wp (step medium)
      ⟨fun content after => content = value ∧ Within [place rel] machine after, fun _ _ => False,
        Within [place rel] machine⟩ machine) :
    (atomicInstall source dest).wp (step medium) ⟨fun ok after => Within [place rel] machine after ∧
          (ok = true → after.files.lookup (place rel) = value),
        fun _ _ => False, Within [place rel] machine⟩ machine := by
  obtain ⟨own, isOwn, isPlace, isTemp⟩ := ordinary.dest
  rw [isDest] at isOwn
  cases isOwn
  have plain := ordinary.plain
  have refl := Within.refl [place rel] machine
  have fails : ∀ {after}, Within [place rel] machine after → Within [place rel] machine after ∧
      (false = true → after.files.lookup (place rel) = value) :=
    fun within => ⟨within, nofun⟩
  unfold atomicInstall
  rw [isPlace, isTemp]
  apply wp_do.mpr
  apply wp_system refl
  intro made
  cases made with
  | false => exact fails refl
  | true =>
    apply wp_seq reads
    intro found opened ⟨isFound, opens⟩
    subst isFound
    cases found with
    | none => exact fails opens
    | some content =>
      have written : ∀ rest, Within [place rel] machine
          (opened.write (tempOf (place rel)) rest) :=
        fun rest => opens.trans (within_write_temp plain)
      apply wp_do.mpr
      apply wp_copyTo opens
      · have untouched := opens.trans (within_touch_temp plain)
        exact ⟨fails untouched, untouched⟩
      · -- The copy is complete.
        have copied := written content
        apply wp_do.mpr
        apply wp_system copied
        intro synced
        cases synced with
        | false => exact fails copied
        | true =>
          apply wp_rename copied
          · intro moved isMoved
            refine ⟨copied.trans (within_rename plain), ?_⟩
            intro _
            have same : moved = content := by
              rw [Machine.write, Machine.update, AList.lookup_insert] at isMoved
              exact (Option.some.inj isMoved).symm
            rw [same]
            exact AList.lookup_insert _
          · have kept := copied.trans (within_rename_touch plain)
            exact ⟨fails kept, kept⟩
      · exact fun rest => ⟨fails (written rest), written rest⟩

end Install

/-! ### Backups -/

def newEntries (files : Files) (directory : Path) : List Text :=
  (lines ((files.lookup (directory ++ [NEW_FILES])).getD [])).filter (fun rel => rel ≠ [])

theorem mem_newEntries {rel : Text}
    (isLine : rel ∈ lines ((files.lookup (directory ++ [NEW_FILES])).getD [])) (nonempty : rel ≠ []) :
    rel ∈ newEntries files directory :=
  mem_filter.mpr ⟨isLine, decide_eq_true nonempty⟩

/-- What a backup directory records is what the view has at some of the places. -/
structure Captures (files : Files) (directory : Path) (places : List Path) (view : View) : Prop where
  saved : ∀ entry content, files.lookup (directory ++ FILES :: entry) = some content →
    ∃ rel, Ordinary rel ∧ names rel = entry ∧ place rel ∈ places ∧ view (place rel) = some content
  created : ∀ rel ∈ newEntries files directory,
    Ordinary rel ∧ place rel ∈ places ∧ view (place rel) = none

/-- A backup directory says what to put back at a place. -/
def Covers (files : Files) (directory path : Path) : Prop :=
  (∃ rel content, Ordinary rel ∧ place rel = path ∧
    files.lookup (directory ++ FILES :: names rel) = some content) ∨
  ∃ rel ∈ newEntries files directory, place rel = path

/-- A complete backup of all of the places. -/
structure Snapshot (files : Files) (directory : Path) (places : List Path) (view : View) : Prop
    extends Captures files directory places view where
  complete : files.lookup (directory ++ [COMPLETE]) ≠ none
  covers : ∀ path ∈ places, Covers files directory path

section Captures

variable {before after : Files} {places : List Path} {view other : View}

theorem Captures.congr (captures : Captures before directory places view)
    (same : ∀ path, directory <+: path → after.lookup path = before.lookup path) :
    Captures after directory places view where
  saved entry content present := by
    rw [same _ (prefix_append _ _)] at present
    exact captures.saved entry content present
  created rel member := by
    rw [newEntries, same _ (prefix_append _ _)] at member
    exact captures.created rel member

/-- What is left of a backup when some of its files have been removed. -/
theorem Captures.mono (captures : Captures before directory places view)
    (fewer : ∀ path content, directory <+: path → after.lookup path = some content →
      before.lookup path = some content) : Captures after directory places view where
  saved entry content present :=
    captures.saved entry content (fewer _ _ (prefix_append _ _) present)
  created rel member := by
    apply captures.created
    unfold newEntries at member ⊢
    cases present : after.lookup (directory ++ [NEW_FILES]) with
    | none =>
      rw [present] at member
      cases member
    | some list =>
      rw [present] at member
      rw [fewer _ _ (prefix_append _ _) present]
      exact member

theorem Snapshot.congr (snapshot : Snapshot before directory places view)
    (same : ∀ path, directory <+: path → after.lookup path = before.lookup path) :
    Snapshot after directory places view where
  toCaptures := snapshot.toCaptures.congr same
  complete := by
    rw [same _ (prefix_append _ _)]
    exact snapshot.complete
  covers path member := by
    rcases snapshot.covers path member with ⟨rel, content, ordinary, isPlace, present⟩ | isNew
    · left
      refine ⟨rel, content, ordinary, isPlace, ?_⟩
      rw [same _ (prefix_append _ _)]
      exact present
    · right
      rw [newEntries, same _ (prefix_append _ _)]
      exact isNew

theorem Captures.view_congr (captures : Captures files directory places view)
    (same : ∀ path ∈ places, other path = view path) : Captures files directory places other where
  saved entry content present := by
    obtain ⟨rel, ordinary, isNames, isPlace, isView⟩ := captures.saved entry content present
    refine ⟨rel, ordinary, isNames, isPlace, ?_⟩
    rw [same _ isPlace, isView]
  created rel member := by
    obtain ⟨ordinary, isPlace, isView⟩ := captures.created rel member
    refine ⟨ordinary, isPlace, ?_⟩
    rw [same _ isPlace, isView]

theorem Snapshot.view_congr (snapshot : Snapshot files directory places view)
    (same : ∀ path ∈ places, other path = view path) : Snapshot files directory places other :=
  ⟨snapshot.toCaptures.view_congr same, snapshot.complete, snapshot.covers⟩

end Captures

/-! ### `restore_from_backup` -/

section Restore

variable {medium : Medium} {machine current after : Machine} {places entries : List Path}
  {view : View} {context : Context} {backupDir : Text}

/-- Changing one place to what the view has there leaves the others as they are. -/
theorem lookup_settled {other : Path} (within : Within [path] current after)
    (isPlain : Plain other) (settled : current.files.lookup other = view other)
    (own : after.files.lookup path = view path) : after.files.lookup other = view other := by
  by_cases same : other = path
  · rw [same]
    exact own
  · rw [within.plain other isPlain (fun member => same (mem_singleton.mp member))]
    exact settled

theorem not_mem_of_own (plain : ∀ path ∈ places, Plain path) (own : Own path) :
    path ∉ places :=
  fun member => (plain path member).notOwn own

theorem resolve_backup_own (inRoot : resolve BACKUP_ROOT <+: resolve backupDir) (rest : Path) :
    Own (resolve backupDir ++ rest) :=
  Own.of_backup (inRoot.trans (prefix_append _ _))

/-- What is known of a saved file that `find` comes across. -/
structure SavedEntry (machine : Machine) (backupDir : Text) (places : List Path) (view : View)
    (rel : Text) (content : Content) : Prop where
  ordinary : Ordinary rel
  isPlace : place rel ∈ places
  isView : view (place rel) = some content
  present : machine.files.lookup (resolve (backupDir ++ "/files/".toList ++ rel)) = some content

theorem savedEntry_of_found (captures : Captures machine.files (resolve backupDir) places view)
    (found : entry ∈ below machine.files (resolve backupDir ++ [FILES])) :
    ∃ content, SavedEntry machine backupDir places view (['/'].intercalate entry) content := by
  obtain ⟨content, present⟩ := mem_below.mp found
  rw [append_assoc] at present
  obtain ⟨rel, ordinary, rfl, isPlace, isView⟩ := captures.saved entry content present
  obtain ⟨canonical, samePlace⟩ := ordinary.canonical
  obtain ⟨root, rest, installs⟩ := ordinary.installs
  have sameNames : names (['/'].intercalate (names rel)) = names rel := by
    rw [installs.canonical.names_eq, installs.names_join, installs.names_eq]
  refine ⟨content, canonical, ?_, ?_, ?_⟩
  · rw [samePlace]
    exact isPlace
  · rw [samePlace]
    exact isView
  · rw [canonical.resolve_saved, sameNames]
    exact present

theorem removeCreated_wp {rel : Text} (ordinary : Ordinary rel) (isPlace : place rel ∈ places)
    (isView : view (place rel) = none) (within : Within places machine current) :
    (removeCreated context rel).wp (step medium)
      (stopping places machine (fun _ after => Within [place rel] current after ∧
          after.files.lookup (place rel) = view (place rel)))
      current := by
  obtain ⟨dest, isDest, isResolved, _⟩ := ordinary.dest
  have plain := ordinary.plain
  have touches : Within [place rel] current (current.touch (place rel)) :=
    within_look plain _ (by simp)
  have removes : Within [place rel] current
      (current.update (current.files.erase (place rel)) [place rel]) := by
    apply within_touch_install plain
    · simp
    · intro other own
      apply AList.lookup_erase_ne
      rintro rfl
      exact plain.notOwn own
    · exact below_erase plain.not_below
    · exact fun other _ different => AList.lookup_erase_ne different
  unfold removeCreated
  simp only [ordinary.ne_nil, if_false, isDest, isResolved]
  apply wp_must_remove Within.stops within (within.at_place isPlace touches)
  refine ⟨removes, ?_⟩
  rw [isView]
  exact AList.lookup_erase _ _

def SavedBack (view : View) (entries : List Path) (machine : Machine) : Prop :=
  ∀ entry ∈ entries, Plain (place (['/'].intercalate entry)) ∧
    machine.files.lookup (place (['/'].intercalate entry)) = view (place (['/'].intercalate entry))

theorem removeCreated_loop_wp (captures : Captures machine.files (resolve backupDir) places view)
    (within : Within places machine current) (saved : SavedBack view entries current) :
    (forEach (lines ((machine.files.lookup (resolve backupDir ++ [NEW_FILES])).getD []))
        (removeCreated context)).wp (step medium)
      (stopping places machine (fun _ after => Within places machine after ∧ SavedBack view entries after ∧
          ∀ rel ∈ newEntries machine.files (resolve backupDir),
            after.files.lookup (place rel) = view (place rel))) current := by
  apply wp_forEach (fun done after => Within places machine after ∧ SavedBack view entries after ∧
    ∀ rel ∈ done, rel ≠ [] → Ordinary rel ∧ after.files.lookup (place rel) = view (place rel))
  · exact ⟨within, saved, nofun⟩
  · intro done rel rest next split ⟨inside, back, removed⟩
    by_cases empty : rel = []
    · rw [empty]
      refine ⟨inside, back, ?_⟩
      intro other member nonempty
      rcases mem_append.mp member with earlier | own
      · exact removed other earlier nonempty
      · exact absurd (mem_singleton.mp own) nonempty
    · have isNew := mem_newEntries (by rw [split]; simp) empty
      obtain ⟨ordinary, isPlace, isView⟩ := captures.created rel isNew
      apply wp_weaken (removeCreated_wp ordinary isPlace isView inside)
      intro _ last ⟨changes, gone⟩
      refine ⟨inside.at_place isPlace changes, ?_, ?_⟩
      · intro entry member
        obtain ⟨isPlain, before⟩ := back entry member
        exact ⟨isPlain, lookup_settled changes isPlain before gone⟩
      · intro other member nonempty
        rcases mem_append.mp member with earlier | own
        · obtain ⟨isOrdinary, before⟩ := removed other earlier nonempty
          exact ⟨isOrdinary, lookup_settled changes isOrdinary.plain before gone⟩
        · rw [mem_singleton.mp own]
          exact ⟨ordinary, gone⟩
  · intro last ⟨inside, back, removed⟩
    refine ⟨inside, back, ?_⟩
    intro rel member
    obtain ⟨isLine, nonempty⟩ := mem_filter.mp member
    exact (removed rel isLine (of_decide_eq_true nonempty)).2

section Saved

variable (inRoot : resolve BACKUP_ROOT <+: resolve backupDir) (plain : ∀ path ∈ places, Plain path)
include inRoot plain

/-- The copy of a saved file stays readable while files are put back. -/
theorem SavedEntry.reads {rel : Text} {content : Content}
    (saved : SavedEntry machine backupDir places view rel content)
    (within : Within places machine current) :
    Own (resolve (backupDir ++ "/files/".toList ++ rel)) ∧
      current.files.lookup (resolve (backupDir ++ "/files/".toList ++ rel)) = some content := by
  have own : Own (resolve (backupDir ++ "/files/".toList ++ rel)) := by
    rw [saved.ordinary.resolve_saved]
    exact resolve_backup_own inRoot _
  refine ⟨own, ?_⟩
  rw [within.own _ own (not_mem_of_own plain own)]
  exact saved.present

theorem restoreSaved_wp (captures : Captures machine.files (resolve backupDir) places view)
    (found : entry ∈ below machine.files (resolve backupDir ++ [FILES]))
    (within : Within places machine current) :
    (restoreSaved context backupDir entry).wp (step medium)
      (stopping places machine (fun _ after => Within [place (['/'].intercalate entry)] current after ∧
          place (['/'].intercalate entry) ∈ places ∧
          after.files.lookup (place (['/'].intercalate entry)) =
            view (place (['/'].intercalate entry)))) current := by
  obtain ⟨content, saved⟩ := savedEntry_of_found captures found
  obtain ⟨dest, isDest, _, _⟩ := saved.ordinary.dest
  obtain ⟨own, reads⟩ := saved.reads inRoot plain within
  unfold restoreSaved
  simp only [saved.ordinary.ne_nil, if_false, isDest]
  apply wp_do.mpr
  have installed := @atomicInstall_wp medium current _ dest saved.ordinary isDest
    (readFile (resolve (backupDir ++ "/files/".toList ++ ['/'].intercalate entry))) (some content)
    (wp_readFile (.refl _ _) (.touch own _) ⟨reads, .touch own _⟩)
  apply wp_mono installed
  · intro ok next ⟨changes, succeeds⟩
    cases ok with
    | false => exact wp_die Within.stops (within.at_place saved.isPlace changes)
    | true =>
      refine ⟨changes, saved.isPlace, ?_⟩
      rw [succeeds rfl, saved.isView]
  · exact fun _ _ impossible => impossible.elim
  · exact fun _ changes => within.at_place saved.isPlace changes

theorem restoreSaved_loop_wp (captures : Captures machine.files (resolve backupDir) places view)
    (found : ∀ entry ∈ entries, entry ∈ below machine.files (resolve backupDir ++ [FILES]))
    (within : Within places machine current) :
    (forEach entries (restoreSaved context backupDir)).wp (step medium)
      (stopping places machine (fun _ after => Within places machine after ∧ SavedBack view entries after))
      current := by
  apply wp_forEach (fun done after => Within places machine after ∧ SavedBack view done after)
  · exact ⟨within, nofun⟩
  · intro done entry rest next split ⟨inside, settled⟩
    have isFound := found entry (by rw [split]; simp)
    apply wp_weaken (restoreSaved_wp inRoot plain captures isFound inside)
    intro _ last ⟨changes, isPlace, restored⟩
    refine ⟨inside.at_place isPlace changes, ?_⟩
    intro other member
    rcases mem_append.mp member with earlier | own
    · obtain ⟨isPlain, before⟩ := settled other earlier
      exact ⟨isPlain, lookup_settled changes isPlain before restored⟩
    · rw [mem_singleton.mp own]
      exact ⟨plain _ isPlace, restored⟩
  · exact fun _ holds => holds

omit plain in
/-- The files of a backup are looked up in a complete one. -/
theorem savedFiles_wp :
    (savedFiles context backupDir).wp (step medium)
      (stopping places machine (fun entries after => (Within places machine after ∧
          machine.files.lookup (resolve backupDir ++ [COMPLETE]) ≠ none) ∧
          entries.Perm (below machine.files (resolve backupDir ++ [FILES])))) machine := by
  have own := resolve_backup_own inRoot
  have ownDir : Own (resolve backupDir) := Own.of_backup inRoot
  have nonempty : backupDir ≠ [] := by
    rintro rfl
    exact absurd inRoot (by decide)
  unfold savedFiles
  rw [resolve_complete, resolve_files, if_neg nonempty]
  have touched : Within places machine (machine.touch (resolve backupDir)) := .touch ownDir _
  apply wp_do.mpr
  apply wp_findFiles (Within.refl places machine) touched
  intro present isPerm
  dsimp only
  split
  · exact wp_die Within.stops touched
  apply wp_do.mpr
  have read := touched.trans (.touch (own [COMPLETE]) _)
  apply wp_readFile touched read
  dsimp only
  split
  · exact wp_die Within.stops read
  rename_i isComplete
  have searched := read.trans (.touch (own [FILES]) _)
  apply wp_findFiles read searched
  exact fun entries isEntries => ⟨⟨searched, isComplete⟩, isEntries⟩

/-- What the backup says is put back, and nothing else changes. -/
theorem putBack_wp {entries : List Path} (captured : Captures machine.files (resolve backupDir) places view)
    (isEntries : entries.Perm (below machine.files (resolve backupDir ++ [FILES])))
    (searched : Within places machine current) :
    (putBack context backupDir entries).wp (step medium)
      (stopping places machine (fun _ after => Within places machine after ∧
          Captures machine.files (resolve backupDir) places view ∧
          ∀ path, Covers machine.files (resolve backupDir) path → after.files.lookup path = view path))
      current := by
  have own := resolve_backup_own inRoot
  have found : ∀ entry ∈ entries, entry ∈ below machine.files (resolve backupDir ++ [FILES]) :=
    fun entry member => isEntries.mem_iff.mp member
  unfold putBack
  rw [resolve_newFiles]
  apply wp_seq (restoreSaved_loop_wp inRoot plain captured found searched)
  intro _ restored ⟨inside, saved⟩
  apply wp_do.mpr
  have listed := inside.trans (.touch (own [NEW_FILES]) _)
  apply wp_readFile inside listed
  rw [inside.own _ (own [NEW_FILES]) (not_mem_of_own plain (own [NEW_FILES]))]
  apply wp_seq (removeCreated_loop_wp captured listed saved)
  intro _ removed ⟨within, back, gone⟩
  apply wp_must_system Within.stops within
  refine ⟨within, captured, ?_⟩
  intro path covers
  rcases covers with ⟨rel, content, ordinary, rfl, isSaved⟩ | ⟨rel, isNew, rfl⟩
  · have isEntry : names rel ∈ entries := by
      apply isEntries.mem_iff.mpr
      apply mem_below.mpr
      refine ⟨content, ?_⟩
      rw [append_assoc]
      exact isSaved
    have settled := (back (names rel) isEntry).2
    rw [ordinary.canonical.2] at settled
    exact settled
  · exact gone rel isNew

/-- A restore puts back what the backup says, and changes nothing else. It only trusts a
backup that is complete. -/
theorem restoreFromBackup_captures_wp
    (captures : machine.files.lookup (resolve backupDir ++ [COMPLETE]) ≠ none →
      Captures machine.files (resolve backupDir) places view) :
    (restoreFromBackup context backupDir).wp (step medium)
      (stopping places machine (fun _ after => Within places machine after ∧
          Captures machine.files (resolve backupDir) places view ∧
          ∀ path, Covers machine.files (resolve backupDir) path → after.files.lookup path = view path))
      machine := by
  apply wp_seq (savedFiles_wp inRoot)
  exact fun entries current ⟨⟨searched, isComplete⟩, isEntries⟩ =>
    putBack_wp inRoot plain (captures isComplete) isEntries searched

/-- **A restore that completes puts the snapshot back**, whatever the places hold before.
On the way only the places and temporary files change. -/
theorem restoreFromBackup_wp (snapshot : Snapshot machine.files (resolve backupDir) places view) :
    (restoreFromBackup context backupDir).wp (step medium)
      (stopping places machine (fun _ after => Within places machine after ∧
          ∀ path ∈ places, after.files.lookup path = view path))
      machine := by
  apply wp_weaken (restoreFromBackup_captures_wp inRoot plain (fun _ => snapshot.toCaptures))
  exact fun _ _ ⟨within, _, restored⟩ =>
    ⟨within, fun path member => restored path (snapshot.covers path member)⟩

end Saved

end Restore

end MagnetoX.Ota
