import KifuRatings.Proofs.Files.Growth
import KifuRatings.Proofs.Intake.Told

/-!
# Following a growing directory

Files and directories are created, and from time to time a directory is searched. Every search
takes in what came since the last one, so all of them together come to what one search at the
end comes to. What carries this is that a file which was found is found by every later search
and reads the same.
-/

namespace KifuRatings

namespace FileSystem

variable {files later : FileSystem}

theorem create_linkless (linkless : files.Linkless) (path : Path) (entry : Entry) :
    (files.create path entry).Linkless := by
  rcases create_cases files path entry with
    nothing | ⟨parent, name, rfl, _, _, noLink, created⟩
  · rwa [nothing]
  · intro other text there
    rw [created, lookup_put files (by simp)] at there
    split at there
    · obtain rfl := Option.some.inj there
      simp [Entry.isLink] at noLink
    · exact linkless other text there

theorem finds_grows (grows : files.Grows later) {route : Bytes} {recursive : Bool}
    {form : RecordForm} {path : Path} (finds : files.Finds route recursive form path) :
    later.Finds route recursive form path := by
  obtain ⟨directory, name, resolved, isDirectory, found, isForm⟩ := finds
  exact ⟨directory, name, resolve_grows grows resolved, directory_grows grows isDirectory,
    scan_finds_grows grows found, isForm⟩

end FileSystem

namespace Scorebook

variable {ε : Type}

theorem take_directory_succeeds {reader : OutcomeReader ε} {files : FileSystem}
    {book : Scorebook} {route : Bytes} {recursive : Bool} {progress : Progress}
    (other : Scorebook) (taken : takeDirectory reader files book route recursive = .ok progress) :
    ∃ more, takeDirectory reader files other route recursive = .ok more := by
  unfold takeDirectory RecordFiles.search at taken ⊢
  cases resolved : files.resolve route with
  | error cause => simp [resolved, bind, Except.bind] at taken
  | ok path =>
      cases isDirectory : files.isDirectoryAt path with
      | false => simp [resolved, isDirectory, bind, Except.bind] at taken
      | true => simp [isDirectory, bind, Except.bind, pure, Except.pure]

end Scorebook

inductive Happening where
  | create (path : Path) (entry : Entry)
  | search
deriving DecidableEq

/-- The files as they are, the scorebook, and what all searches have counted. -/
structure Following where
  files : FileSystem
  book : Scorebook
  count : IntakeCount

namespace Following

open Scorebook

variable {ε : Type}

def start (files : FileSystem) (range : KomiRange) : Following :=
  ⟨files, Scorebook.empty range, .zero⟩

/-- A search that is refused counts nothing. -/
def follow (reader : OutcomeReader ε) (route : Bytes) (recursive : Bool)
    (following : Following) : Happening → Following
  | .create path entry => { following with files := following.files.create path entry }
  | .search =>
      match takeDirectory reader following.files following.book route recursive with
      | .ok progress => ⟨following.files, progress.book, following.count.add progress.count⟩
      | .error _ => following

def followAll (reader : OutcomeReader ε) (route : Bytes) (recursive : Bool)
    (following : Following) (happenings : List Happening) : Following :=
  happenings.foldl (follow reader route recursive) following

/-- Every known file is found by a search now, and the known files tell everything. -/
structure Sound (reader : OutcomeReader ε) (range : KomiRange) (route : Bytes)
    (recursive : Bool) (following : Following) : Prop where
  linkless : following.files.Linkless
  rooted : following.files.Rooted
  found : ∀ form path, (form, path) ∈ following.book.known →
    following.files.Finds route recursive form path
  told : Told reader following.files range following.book following.count

variable {reader : OutcomeReader ε} {range : KomiRange} {route : Bytes} {recursive : Bool}
  {following : Following}

theorem sound_start {files : FileSystem} (linkless : files.Linkless) (rooted : files.Rooted) :
    Sound reader range route recursive (start files range) where
  linkless := linkless
  rooted := rooted
  found _ _ known := absurd known (RecordFiles.not_mem_empty _)
  told := told_nothing reader files range

theorem sound_create (sound : Sound reader range route recursive following) (path : Path)
    (entry : Entry) :
    Sound reader range route recursive (following.follow reader route recursive
      (.create path entry)) where
  linkless := FileSystem.create_linkless sound.linkless path entry
  rooted := FileSystem.create_rooted sound.rooted path entry
  found form place known :=
    FileSystem.finds_grows (FileSystem.create_grows _ path entry) (sound.found form place known)
  told := by
    apply told_later sound.told
    intro file known
    obtain ⟨_, _, _, _, ⟨_, _, _, isFile, _⟩, _⟩ := sound.found file.1 file.2 known
    exact FileSystem.read_path_grows sound.rooted (FileSystem.create_grows _ path entry) isFile

theorem mem_known_after_search (sound : Sound reader range route recursive following)
    {progress : Progress}
    (taken : takeDirectory reader following.files following.book route recursive = .ok progress)
    (form : RecordForm) (path : Path) :
    (form, path) ∈ progress.book.known ↔ following.files.Finds route recursive form path := by
  obtain ⟨new, takes, isNew⟩ := take_directory_eq_ok taken
  -- Without links a path tells its form, so it is not known in the other one.
  have agree := FileSystem.forms_agree_of_linkless sound.linkless
  have inForm : following.book.known.contains path = true →
      following.files.Finds route recursive form path → (form, path) ∈ following.book.known := by
    intro known found
    apply RecordFiles.mem_of_contains _ (FileSystem.form_of_finds agree found) known
    intro told member
    exact FileSystem.form_of_finds agree (sound.found told path member)
  rw [takes.known, RecordFiles.mem_union_unknown (isNew form path) inForm]
  exact or_iff_right_of_imp (sound.found form path)

theorem told_after_search (sound : Sound reader range route recursive following)
    {progress : Progress}
    (taken : takeDirectory reader following.files following.book route recursive = .ok progress) :
    Told reader following.files range progress.book (following.count.add progress.count) := by
  obtain ⟨new, takes, _⟩ := take_directory_eq_ok taken
  exact told_takes sound.told takes

theorem sound_search (sound : Sound reader range route recursive following) :
    Sound reader range route recursive (following.follow reader route recursive .search) := by
  unfold follow
  cases taken : takeDirectory reader following.files following.book route recursive with
  | error cause => exact sound
  | ok progress =>
      refine ⟨sound.linkless, sound.rooted, ?_, told_after_search sound taken⟩
      intro form path known
      exact (mem_known_after_search sound taken form path).mp known

theorem sound_follow (sound : Sound reader range route recursive following)
    (happening : Happening) :
    Sound reader range route recursive (following.follow reader route recursive happening) := by
  cases happening with
  | create path entry => exact sound_create sound path entry
  | search => exact sound_search sound

theorem sound_follow_all (sound : Sound reader range route recursive following)
    (happenings : List Happening) :
    Sound reader range route recursive
      (following.followAll reader route recursive happenings) := by
  induction happenings generalizing following with
  | nil => exact sound
  | cons happening happenings induction => exact induction (sound_follow sound happening)

theorem searches_agree {other : Following} {last lastOther : Progress}
    (sound : Sound reader range route recursive following)
    (soundOther : Sound reader range route recursive other)
    (sameFiles : other.files = following.files)
    (taken : takeDirectory reader following.files following.book route recursive = .ok last)
    (takenOther : takeDirectory reader other.files other.book route recursive = .ok lastOther) :
    lastOther.book = last.book ∧
      other.count.add lastOther.count = following.count.add last.count := by
  have told := told_after_search sound taken
  have toldOther := told_after_search soundOther takenOther
  rw [sameFiles] at toldOther
  apply told_unique told toldOther
  apply RecordFiles.ext_file
  intro file
  rcases file with ⟨form, path⟩
  rw [mem_known_after_search sound taken, mem_known_after_search soundOther takenOther, sameFiles]

/-- Whatever is created between the searches of a directory, and however often it is searched,
all searches together count what a single search of the final files counts, and the scorebook
is in the end the one that this search leaves. -/
theorem searches_come_to_the_last (reader : OutcomeReader ε) (range : KomiRange)
    (route : Bytes) (recursive : Bool) (files : FileSystem) (linkless : files.Linkless)
    (rooted : files.Rooted) (happenings : List Happening) (last : Progress)
    (searched : takeDirectory reader
      ((start files range).followAll reader route recursive happenings).files
      ((start files range).followAll reader route recursive happenings).book
      route recursive = .ok last) :
    ∃ once, takeDirectory reader
        ((start files range).followAll reader route recursive happenings).files
        (Scorebook.empty range) route recursive = .ok once ∧
      once.book = last.book ∧
      once.count =
        ((start files range).followAll reader route recursive happenings).count.add
          last.count := by
  have sound : Sound reader range route recursive
      ((start files range).followAll reader route recursive happenings) :=
    sound_follow_all (sound_start linkless rooted) happenings
  obtain ⟨once, searchedOnce⟩ := take_directory_succeeds (Scorebook.empty range) searched
  have soundOnce : Sound reader range route recursive (start _ range) :=
    sound_start sound.linkless sound.rooted
  obtain ⟨sameBook, sameCount⟩ := searches_agree sound soundOnce rfl searched searchedOnce
  have counted : IntakeCount.zero.add once.count = once.count := zero_add once.count
  exact ⟨once, searchedOnce, sameBook, counted ▸ sameCount⟩

def bareRoot : FileSystem := ⟨∅, []⟩

theorem bare_root_sound : bareRoot.Linkless ∧ bareRoot.Rooted := by
  have nothing : ∀ path, path ≠ [] → bareRoot.lookup path = none := by
    intro path notRoot
    rw [FileSystem.lookup, if_neg notRoot]
    exact Std.ExtTreeMap.getElem?_empty
  constructor
  · intro path text there
    by_cases root : path = []
    · simp [FileSystem.lookup, root] at there
    · simp [nothing path root] at there
  · intro path name there
    exact absurd (nothing _ (by simp)) there

/-- A game with a handicap, and then a game and a line that is none, with a search before, between
and behind them. -/
def twoFiles : Following :=
  (start bareRoot .standard).followAll .gameRecord "." false
    [.search, .create ["a.sgf"] (.file (Utf8.encode "(;PB[a]PW[b]RE[B+R]HA[2])")), .search,
      .create ["b.sgfs"] (.file (Utf8.encode "(;PB[b]PW[a]RE[W+1])\nx"))]

/-- The last search takes in the second file alone, and one search takes in both. -/
theorem two_files_come_one_by_one :
    (bareRoot.Linkless ∧ bareRoot.Rooted) ∧ ∃ last once,
      takeDirectory .gameRecord twoFiles.files twoFiles.book "." false = .ok last ∧
      takeDirectory .gameRecord twoFiles.files (Scorebook.empty .standard) "." false = .ok once ∧
      once.book = last.book ∧ last.book.nonstandard = true ∧
      last.book.table.entries = [(⟨"a", "b"⟩, ⟨1, 0, 0⟩), (⟨"b", "a"⟩, ⟨0, 1, 0⟩)] ∧
      twoFiles.count = ⟨1, 1, 0, 0⟩ ∧ last.count = ⟨1, 1, 1, 0⟩ ∧ once.count = ⟨2, 2, 1, 0⟩ := by
  have counted : twoFiles.count = ⟨1, 1, 0, 0⟩ := by decide +kernel
  have lastTold : (takeDirectory .gameRecord twoFiles.files twoFiles.book "." false).map
      (fun last => (last.book.nonstandard, last.book.table.entries, last.count)) =
        .ok (true, [(⟨"a", "b"⟩, ⟨1, 0, 0⟩), (⟨"b", "a"⟩, ⟨0, 1, 0⟩)], ⟨1, 1, 1, 0⟩) := by
    decide +kernel
  cases searched : takeDirectory .gameRecord twoFiles.files twoFiles.book "." false with
  | error cause => simp [searched, Except.map] at lastTold
  | ok last =>
      obtain ⟨once, searchedOnce, sameBook, sameCount⟩ := searches_come_to_the_last .gameRecord
        .standard "." false bareRoot bare_root_sound.1 bare_root_sound.2 _ last searched
      simp only [searched, Except.map, Except.ok.injEq, Prod.mk.injEq] at lastTold
      obtain ⟨flagged, entries, alone⟩ := lastTold
      refine ⟨bare_root_sound, last, once, rfl, searchedOnce, sameBook, flagged, entries, counted,
        alone, ?_⟩
      rw [sameCount, alone]
      exact congrArg (IntakeCount.add · ⟨1, 1, 1, 0⟩) counted

end Following

end KifuRatings
