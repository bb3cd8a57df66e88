import Mathlib.Data.List.Nodup
import Shroud.Command.Run
import Shroud.Proofs.Files
import Shroud.Proofs.Json.Text

/-! # Commands keep compilations

A command writes after everything else has succeeded. The manifest of a compilation is read again as
it was written, so that a directory with the results of a compilation takes those of another one just
if it has the same settings.
-/

namespace Shroud

open Json

attribute [local simp] member_cons Field.required Field.orElse str? bool?

/-! ## Settings and manifests -/

/-- An object with the fields of a record, each once, gives them. -/
theorem Json.record?_obj (names : List String) {members : List (String × Json)}
    (h : members.map Prod.fst = names) (hn : names.Nodup) :
    record? names (.obj members) = some (member members) := by
  refine if_neg fun hany => ?_
  obtain ⟨name, -, htwice⟩ := List.any_eq_true.1 hany
  have hcount : members.countP (fun m => m.1 == name) = names.count name := by
    rw [← h, List.count, List.countP_map]
    rfl
  have hle := List.nodup_iff_count.1 hn name
  rw [givenTwice, hcount, decide_eq_true_eq] at htwice
  omega

theorem Backend.ofJson?_toJson (b : Backend) : Backend.ofJson? b.toJson = some b := by
  cases b <;> rfl

theorem ProvingScheme.ofJson?_toJson (s : ProvingScheme) : ProvingScheme.ofJson? s.toJson = some s := by
  cases s <;> rfl

namespace Settings

/-- The threshold is one that can be written. -/
def InRange (s : Settings) : Prop := s.hashThreshold < 0x10000000000000000

theorem ofJson?_toJson {s : Settings} (h : s.InRange) : ofJson? s.toJson = some s := by
  rw [ofJson?, toJson, record?_obj fields rfl (by decide)]
  simp only [Option.bind_eq_bind, Option.bind_some, member_cons, String.reduceEq, if_true, if_false,
    Field.orElse, word64?, natBelow?_ofNat h, Backend.ofJson?_toJson, ProvingScheme.ofJson?_toJson, str?,
    bool?, Option.pure_def]

theorem gives : Gives ofJson? InRange := by
  intro j s h
  obtain ⟨f, -, h⟩ := Option.bind_eq_some_iff.1 h
  obtain ⟨_, -, h⟩ := Option.bind_eq_some_iff.1 h
  obtain ⟨_, -, h⟩ := Option.bind_eq_some_iff.1 h
  obtain ⟨threshold, hthreshold, h⟩ := Option.bind_eq_some_iff.1 h
  iterate 9 obtain ⟨_, -, h⟩ := Option.bind_eq_some_iff.1 h
  cases h
  exact (Gives.natBelow? _).orElse (by decide) hthreshold

theorem isPlain_toJson {s : Settings} (h : s.InRange) : s.toJson.IsPlain := by
  have hword : isWord s.hashThreshold = true := by
    rw [InRange] at h
    simp only [isWord, Bool.and_eq_true, decide_eq_true_eq]
    omega
  simp [toJson, IsPlain, IsPlainMembers, Backend.toJson, ProvingScheme.toJson, Json.ofNat, hword]

end Settings

namespace Manifest

theorem ofJson?_toJson {m : Manifest} (h : m.settings.InRange) : ofJson? m.toJson = some m := by
  have hnames : list? str? (.ofStrings m.verifiers) = some m.verifiers := by
    rw [ofStrings, ofList, list?]
    induction m.verifiers with
    | nil => rfl
    | cons name names ih => simp [ih]
  rw [ofJson?, toJson, record?_obj fields rfl (by decide)]
  simp [Backend.ofJson?_toJson, ProvingScheme.ofJson?_toJson, Settings.ofJson?_toJson h, hnames]

theorem isPlain_toJson {m : Manifest} (h : m.settings.InRange) : m.toJson.IsPlain := by
  have hnames : IsPlainList (m.verifiers.map Json.str) := by
    induction m.verifiers with
    | nil => trivial
    | cons name names ih => exact ⟨trivial, ih⟩
  simp [toJson, IsPlain, IsPlainMembers, Backend.toJson, ProvingScheme.toJson, ofStrings, ofList,
    Settings.isPlain_toJson h, hnames]

/-- A new manifest is read from its file as it is. -/
theorem load_save_new {s : Settings} (h : s.InRange) (file : String) (verifiers : List String) :
    load (.ok (new s file verifiers).save) = .ok (new s file verifiers) := by
  have hm : (new s file verifiers).settings.InRange := h
  rw [load, save, parse?_pretty (isPlain_toJson hm), Option.bind_some, ofJson?_toJson hm]
  exact if_neg (by simp [new])

theorem checkCompatible_new_iff {s t : Settings} {file : String} {verifiers : List String} :
    (new s file verifiers).checkCompatible t = .ok () ↔ t = s := by
  constructor
  · intro h
    by_contra hne
    unfold checkCompatible at h
    rw [if_neg (show ¬ (new s file verifiers).version ≠ compilerVersion by simp [new])] at h
    split at h
    · cases h
    split at h
    · cases h
    rw [if_pos (show (new s file verifiers).settings ≠ t from Ne.symm hne)] at h
    cases h
  · rintro rfl
    simp [checkCompatible, new]

end Manifest

namespace Command

variable {ts : List Task} {names : List String} {name : String} {t : Settings}

/-! ## Reading command lines -/

theorem ofGiven_of_readFrom {g : Given} {args : List String} {c : Command}
    (h : readFrom g args = .ok c) : ∃ t g', ofGiven t g' = .ok c := by
  induction args generalizing g with
  | nil => cases h
  | cons arg rest ih =>
    unfold readFrom at h
    split at h
    · cases h
    · obtain ⟨g', -, h⟩ := bind_eq_ok.1 h
      exact ⟨_, g', h⟩
    · split at h
      · cases h
      · obtain ⟨_, -, h⟩ := bind_eq_ok.1 h
        exact ih h
      · obtain ⟨_, -, h⟩ := bind_eq_ok.1 h
        exact ih h
      · cases h

theorem count?_lt {value : String} {n : Nat} (h : count? value = some n) :
    n < 0x10000000000000000 := by
  unfold count? at h
  dsimp only at h
  split_ifs at h
  exact of_decide_eq_true (Option.filter_eq_some_iff.1 h).2

/-- The thresholds of command lines are counts. -/
theorem threshold_lt {args : List String} {input output : String} {force : Bool} {o : Options}
    (h : read args = .ok (.compile input output force o)) :
    ∀ n ∈ o.threshold, n < 0x10000000000000000 := by
  obtain ⟨t, g, hg⟩ := ofGiven_of_readFrom h
  unfold ofGiven at hg
  split at hg
  · cases hg
    intro n hn
    obtain ⟨value, -, hvalue⟩ := Option.bind_eq_some_iff.1 hn
    exact count?_lt hvalue
  all_goals cases hg

theorem Options.hashThreshold_apply {o : Options} {s : Settings} (h : o.apply s = .ok t) :
    t.hashThreshold = o.threshold.getD s.hashThreshold := by
  unfold Options.apply at h
  dsimp only at h
  split at h
  · obtain ⟨_, hs, h⟩ := bind_eq_ok.1 h
    cases hs
    split at h <;> cases h
    rfl
  · split at h
    · obtain ⟨_, hs, -⟩ := bind_eq_ok.1 h
      cases hs
    · obtain ⟨_, hs, h⟩ := bind_eq_ok.1 h
      cases hs
      split at h <;> cases h
      rfl

/-- The settings of command lines can be written. -/
theorem Options.settings_inRange {o : Options} {fs : Files} {s : Settings} (h : o.settings fs = .ok s)
    (ho : ∀ n ∈ o.threshold, n < 0x10000000000000000) : s.InRange := by
  have hbase : ∃ base : Settings, base.InRange ∧ o.apply base = .ok s := by
    unfold Options.settings at h
    dsimp only at h
    split at h
    · exact ⟨{}, Nat.lt_of_sub_pos (by decide), h⟩
    · split at h
      · cases h
      · split at h
        · cases h
        · rename_i hjson
          obtain ⟨j, -, hj⟩ := Option.bind_eq_some_iff.1 hjson
          exact ⟨_, Settings.gives j _ hj, h⟩
  obtain ⟨base, hrange, happly⟩ := hbase
  rw [Settings.InRange, Options.hashThreshold_apply happly]
  cases hn : o.threshold with
  | none => exact hrange
  | some n => exact ho n hn

/-! ## Writing -/

/-- A compilation has read and checked what it needs, and has its results. -/
structure Ready (fs : Files) (input output : String) (force : Bool) (o : Options) (s : Settings)
    (u : SourceUnit) (c : Compilation) : Prop where
  settings : o.settings fs = .ok s
  unit : loadUnit fs input = .ok u
  previous : force = false → checkPrevious fs output s = .ok ()
  compiled : result (u.compile s) = .ok c

variable {fs fs' : Files} {args : List String} {input output : String} {force : Bool} {o : Options}
  {s : Settings} {u : SourceUnit} {c : Compilation}

theorem prepare_eq_ok :
    prepare fs input output force o = .ok (s, c) ↔ ∃ u, Ready fs input output force o s u c := by
  constructor
  · intro h
    obtain ⟨t, hs, h⟩ := bind_eq_ok.1 h
    obtain ⟨u, hu, h⟩ := bind_eq_ok.1 h
    have hrest : (force = false → checkPrevious fs output t = .ok ()) ∧
        (do let c ← result (u.compile t); return (t, c)) = Except.ok (s, c) := by
      cases force with
      | false =>
        obtain ⟨_, hprevious, h⟩ := bind_eq_ok.1 h
        exact ⟨fun _ => hprevious, h⟩
      | true => exact ⟨nofun, h⟩
    obtain ⟨c, hc, h⟩ := bind_eq_ok.1 hrest.2
    cases h
    exact ⟨u, hs, hu, hrest.1, hc⟩
  · rintro ⟨u, hs, hu, hprevious, hc⟩
    refine bind_eq_ok.2 ⟨s, hs, bind_eq_ok.2 ⟨u, hu, ?_⟩⟩
    have hlast : (do let c ← result (u.compile s); return (s, c)) = Except.ok (s, c) :=
      bind_eq_ok.2 ⟨c, hc, rfl⟩
    cases force with
    | false => exact bind_eq_ok.2 ⟨(), hprevious rfl, hlast⟩
    | true => exact hlast

/-- A command line that is a compilation and has its results. -/
def Writes (fs : Files) (args : List String) : Prop :=
  ∃ input output force o s u c, read args = .ok (.compile input output force o) ∧
    Ready fs input output force o s u c

/-- Nothing is written before that. -/
theorem runLine_of_not_writes (h : ¬ Writes fs args) : (runLine fs args).2 = fs := by
  unfold runLine
  cases hread : read args with
  | error fault => rfl
  | ok command =>
    cases command with
    | check | info => rfl
    | compile input output force o =>
      dsimp only [run]
      split
      · rfl
      · rename_i s c hprepare
        obtain ⟨u, hready⟩ := prepare_eq_ok.1 hprepare
        exact absurd ⟨input, output, force, o, s, u, c, hread, hready⟩ h

/-- The files after command lines, one after another. -/
def runLines (fs : Files) (lines : List (List String)) : Files :=
  lines.foldl (fun fs args => (runLine fs args).2) fs

theorem runLines_of_not_writes {lines : List (List String)} (h : ∀ before args after,
    lines = before ++ args :: after → ¬ Writes (runLines fs before) args) : runLines fs lines = fs := by
  induction lines with
  | nil => rfl
  | cons args lines ih =>
    have hfirst : (runLine fs args).2 = fs := runLine_of_not_writes (h [] args lines rfl)
    have hrest : runLines fs lines = fs := by
      refine ih fun before args' after hsplit => ?_
      have hnot := h (args :: before) args' after (by rw [hsplit]; rfl)
      rwa [runLines, List.foldl_cons, hfirst] at hnot
    rw [runLines, List.foldl_cons, hfirst]
    exact hrest

/-- A compilation that succeeds was ready, and has saved its results. -/
theorem save_of_status (hread : read args = .ok (.compile input output force o))
    (h : (runLine fs args).1.status = 0) : ∃ s u c, Ready fs input output force o s u c ∧
      save fs output s c = (.ok (), (runLine fs args).2) := by
  rw [runLine, hread] at h ⊢
  dsimp only [run] at h ⊢
  split at h
  · cases h
  · rename_i s c hprepare
    obtain ⟨u, hready⟩ := prepare_eq_ok.1 hprepare
    refine ⟨s, u, c, hready, ?_⟩
    dsimp only at h ⊢
    cases hsaved : (save fs output s c).1 with
    | error fault =>
      rw [hsaved] at h
      cases h
    | ok _ => exact Prod.ext hsaved rfl

/-- A compilation that is ready saves its results. -/
theorem runLine_of_ready (hread : read args = .ok (.compile input output force o))
    (h : Ready fs input output force o s u c) :
    runLine fs args = (outcome ((save fs output s c).1.map fun _ => summary output c),
      (save fs output s c).2) := by
  rw [runLine, hread]
  dsimp only [run]
  rw [prepare_eq_ok.2 ⟨u, h⟩]

/-- A compilation that is refused by the check writes nothing. -/
theorem runLine_of_refused {fault : Failure} (hread : read args = .ok (.compile input output false o))
    (hs : o.settings fs = .ok s) (hu : loadUnit fs input = .ok u)
    (h : checkPrevious fs output s = .error fault) :
    runLine fs args = (outcome (.error fault), fs) := by
  have hprepare : prepare fs input output false o = .error fault := by
    simp [prepare, hs, hu, h, bind, Except.bind]
  rw [runLine, hread]
  dsimp only [run]
  rw [hprepare]

/-- The files of a compilation. -/
def outputNames : List String := [contractName, circuitsName, Manifest.fileName]

theorem isName_of_mem (h : name ∈ outputNames) : Path.IsName name := by
  simp only [outputNames, List.mem_cons, List.not_mem_nil, or_false] at h
  rcases h with rfl | rfl | rfl <;> exact ⟨fun _ => rfl, by decide⟩

/-- Tasks that write files of one directory, under different names. -/
def InDirectory (output : String) (ts : List Task) (names : List String) : Prop :=
  ts.map Task.path = names.map (Path.child output) ∧ names.Nodup ∧ ∀ name ∈ names, Path.IsName name

theorem InDirectory.tail {t : Task} (h : InDirectory output (t :: ts) (name :: names)) :
    t.path = Path.child output name ∧ InDirectory output ts names := by
  obtain ⟨hpath, hpaths⟩ := List.cons.inj h.1
  exact ⟨hpath, hpaths, (List.nodup_cons.1 h.2.1).2, fun n hn => h.2.2 n (List.mem_cons_of_mem _ hn)⟩

/-- What is written leaves the files of other names as they were. -/
theorem read_writeAll (hts : InDirectory output ts names) {text : String} (hname : Path.IsName name)
    (hnot : name ∉ names) (h : writeAll fs ts = (.ok (), fs'))
    (hread : fs.read (Path.child output name) = .ok text) :
    fs'.read (Path.child output name) = .ok text := by
  induction ts generalizing fs names with
  | nil =>
    cases h
    exact hread
  | cons t ts ih =>
    cases names with
    | nil => cases hts.1
    | cons name' names =>
      obtain ⟨hpath, hrest⟩ := hts.tail
      rw [List.mem_cons, not_or] at hnot
      rw [writeAll, hpath] at h
      split at h
      · cases h
      · rename_i hwrite
        exact ih hrest hnot.2 h (Files.read_write_child (hts.2.2 name' List.mem_cons_self) hname
          (Ne.symm hnot.1) hwrite hread)

/-- All that is written is read again. -/
theorem read_of_writeAll (hts : InDirectory output ts names) (h : writeAll fs ts = (.ok (), fs')) :
    ∀ t ∈ ts, fs'.read t.path = .ok t.text := by
  induction ts generalizing fs names with
  | nil => nofun
  | cons t ts ih =>
    cases names with
    | nil => cases hts.1
    | cons name names =>
      obtain ⟨hpath, hrest⟩ := hts.tail
      rw [writeAll] at h
      split at h
      · cases h
      · rename_i hwrite
        refine List.forall_mem_cons.2 ⟨?_, ih hrest h⟩
        have hnew := Files.read_write hwrite
        rw [hpath] at hnew ⊢
        exact read_writeAll hrest (hts.2.2 name List.mem_cons_self) (List.nodup_cons.1 hts.2.1).1 h hnew

/-- To write what is there already succeeds, and changes nothing. -/
theorem writeAll_same (h : ∀ t ∈ ts, fs.read t.path = .ok t.text) :
    ∃ fs', writeAll fs ts = (.ok (), fs') ∧ Files.Same fs' fs := by
  induction ts generalizing fs with
  | nil => exact ⟨fs, rfl, fun _ => rfl⟩
  | cons t ts ih =>
    obtain ⟨htask, hrest⟩ := List.forall_mem_cons.1 h
    obtain ⟨fs₁, hwrite, hsame⟩ := Files.write_same htask
    obtain ⟨fs', hall, hsame'⟩ := ih fun t ht => (hsame.read t.path).trans (hrest t ht)
    refine ⟨fs', ?_, fun p => (hsame' p).trans (hsame p)⟩
    rw [writeAll, hwrite]
    exact hall

theorem inDirectory_tasks (output : String) (s : Settings) (c : Compilation) :
    InDirectory output (tasks output s c) outputNames :=
  ⟨rfl, by decide, fun _ => isName_of_mem⟩

theorem read_of_save (h : save fs output s c = (.ok (), fs')) :
    ∀ t ∈ tasks output s c, fs'.read t.path = .ok t.text := by
  unfold save at h
  split at h
  · cases h
  · exact read_of_writeAll (inDirectory_tasks output s c) h

theorem save_same (h : ∀ t ∈ tasks output s c, fs.read t.path = .ok t.text) :
    ∃ fs', save fs output s c = (.ok (), fs') ∧ Files.Same fs' fs := by
  have hcontract := h _ List.mem_cons_self
  rw [save, Files.makeDirectory_of_read (isName_of_mem (by decide)) hcontract]
  exact writeAll_same h

/-- The manifest of a compilation is checked against its settings. -/
theorem checkPrevious_of_read {verifiers : List String} (hs : s.InRange)
    (h : fs.read (Path.child output Manifest.fileName) =
      .ok (Manifest.new s contractName verifiers).save) :
    checkPrevious fs output t =
      ((Manifest.new s contractName verifiers).checkCompatible t).mapError .incompatible := by
  have hthere : fs.isThere (Path.child output Manifest.fileName) = true := by
    obtain ⟨p, hp, hfile⟩ := Files.read_eq_ok.1 h
    simp [Files.isThere, hp, hfile]
  unfold checkPrevious
  dsimp only
  rw [if_pos hthere, h, Manifest.load_save_new hs]
  dsimp only
  split
  · rename_i hcheck
    rw [hcheck]
    rfl
  · rename_i hcheck
    rw [hcheck]
    rfl

theorem manifest_mem_tasks (output : String) (s : Settings) (c : Compilation) :
    ⟨Path.child output Manifest.fileName, (Manifest.new s contractName c.verifiers).save,
      .manifestFile⟩ ∈ tasks output s c :=
  List.mem_cons_of_mem _ (List.mem_cons_of_mem _ List.mem_cons_self)

/-- **Commands never clobber a compilation.** Files change only by a compilation that has read its
settings and its unit, has passed the check against an earlier manifest, and has its results: in every
sequence of command lines without one, all files stay as they are. After a compilation has succeeded,
and as long as its files are as it left them, a compilation into the same directory passes the check
just if its settings are the same; otherwise it is refused, and no file changes. With the same settings
and the same unit it succeeds, the three files have the same texts again, and nothing else changes. -/
theorem runLine_keeps_compilations (fs : Files) :
    (∀ lines, (∀ before args after, lines = before ++ args :: after →
      ¬ Writes (runLines fs before) args) → runLines fs lines = fs) ∧
    ∀ {args input output force o}, read args = .ok (.compile input output force o) →
      (runLine fs args).1.status = 0 → ∃ s u c, Ready fs input output force o s u c ∧
        ∀ fs', (∀ name ∈ outputNames, fs'.read (Path.child output name) =
            (runLine fs args).2.read (Path.child output name)) →
          (∀ t, checkPrevious fs' output t = .ok () ↔ t = s) ∧
          ∀ {args' input' o' t v}, read args' = .ok (.compile input' output false o') →
            o'.settings fs' = .ok t → loadUnit fs' input' = .ok v →
            (t ≠ s → ∃ fault, runLine fs' args' = (outcome (.error (.incompatible fault)), fs')) ∧
            (t = s → v = u → (runLine fs' args').1.status = 0 ∧
              Files.Same (runLine fs' args').2 fs' ∧ ∀ name ∈ outputNames, ∃ text,
                (runLine fs args).2.read (Path.child output name) = .ok text ∧
                (runLine fs' args').2.read (Path.child output name) = .ok text) := by
  refine ⟨fun _ => runLines_of_not_writes, fun {args input output force o} hread hstatus => ?_⟩
  obtain ⟨s, u, c, hready, hsave⟩ := save_of_status hread hstatus
  refine ⟨s, u, c, hready, fun fs' hkept => ?_⟩
  have hrange : s.InRange := Options.settings_inRange hready.settings (threshold_lt hread)
  have hfiles : ∀ t ∈ tasks output s c, fs'.read t.path = .ok t.text := by
    intro t ht
    have hpath : t.path ∈ outputNames.map (Path.child output) :=
      (inDirectory_tasks output s c).1 ▸ List.mem_map_of_mem ht
    obtain ⟨name, hname, heq⟩ := List.mem_map.1 hpath
    rw [← heq, hkept name hname, heq]
    exact read_of_save hsave t ht
  have hcheck : ∀ t, checkPrevious fs' output t =
      ((Manifest.new s contractName c.verifiers).checkCompatible t).mapError .incompatible :=
    fun t => checkPrevious_of_read hrange (hfiles _ (manifest_mem_tasks output s c))
  have hiff : ∀ t, checkPrevious fs' output t = .ok () ↔ t = s := by
    intro t
    rw [hcheck, ← Manifest.checkCompatible_new_iff (s := s)]
    cases (Manifest.new s contractName c.verifiers).checkCompatible t <;> simp [Except.mapError]
  refine ⟨hiff, fun {args' input' o' t v} hread' hsettings hunit => ⟨fun hne => ?_, ?_⟩⟩
  · cases hfault : (Manifest.new s contractName c.verifiers).checkCompatible t with
    | ok _ => exact absurd (Manifest.checkCompatible_new_iff.1 hfault) hne
    | error fault =>
      refine ⟨fault, runLine_of_refused hread' hsettings hunit ?_⟩
      rw [hcheck, hfault]
      rfl
  · rintro rfl rfl
    have hready' : Ready fs' input' output false o' t v c :=
      ⟨hsettings, hunit, fun _ => (hiff t).2 rfl, hready.compiled⟩
    obtain ⟨fs₂, hsave', hsame⟩ := save_same hfiles
    rw [runLine_of_ready hread' hready', hsave']
    refine ⟨rfl, hsame, fun name hname => ?_⟩
    have hpath : Path.child output name ∈ (tasks output t c).map Task.path := by
      rw [(inDirectory_tasks output t c).1]
      exact List.mem_map_of_mem hname
    obtain ⟨task, htask, heq⟩ := List.mem_map.1 hpath
    rw [← heq]
    exact ⟨task.text, read_of_save hsave task htask, (hsame.read _).trans (hfiles task htask)⟩

/-- A function with a secret is checked, compiled, compiled again, and refused with another
threshold. -/
theorem runLine_keeps_compilations_twice :
    let fs := Files.ofList [("unit.json", "[[[\"C\", [], [[\"f\", \"function\", \"public\", " ++
      "\"non_payable\", [[\"x\", [\"bool\", \"me\"]]]]]]]]")]
    let args := ["compile", "unit.json", "-o", "out"]
    let fs' := (runLine fs args).2
    runLines fs [["check", "unit.json"]] = fs ∧ (runLine fs args).1.status = 0 ∧ fs' ≠ fs ∧
      (runLine fs' args).1.status = 0 ∧ Files.Same (runLine fs' args).2 fs' ∧
      ∃ fault, runLine fs' (args ++ ["--hash-threshold", "3"]) =
        (outcome (.error (.incompatible fault)), fs') := by
  intro fs args fs'
  have hcheck : read ["check", "unit.json"] = .ok (.check "unit.json") := by decide +kernel
  have hread : read args = .ok (.compile "unit.json" "out" false {}) := by decide +kernel
  have hother : read (args ++ ["--hash-threshold", "3"]) =
      .ok (.compile "unit.json" "out" false { threshold := some 3 }) := by decide +kernel
  have hstatus : (runLine fs args).1.status = 0 := by decide +kernel
  have hnew : fs.isThere "out/contract.sol" = false := by decide +kernel
  have hthere : fs'.isThere "out/contract.sol" = true := by decide +kernel
  have hunit : fs'.read "unit.json" = fs.read "unit.json" := by decide +kernel
  have hdefault (fs : Files) : ({} : Options).settings fs = .ok {} := by rfl
  have hsettings (fs : Files) : ({ threshold := some 3 } : Options).settings fs =
      .ok { hashThreshold := 3 } := by rfl
  -- from here on the files are not looked into
  have hfs : fs' = (runLine fs args).2 := rfl
  clear_value fs' fs
  obtain ⟨hframe, hcompile⟩ := runLine_keeps_compilations fs
  obtain ⟨s, u, c, hready, hkeeps⟩ := hcompile hread hstatus
  have hload : loadUnit fs' "unit.json" = .ok u := by
    rw [loadUnit, hunit]
    exact hready.unit
  obtain rfl : s = {} := Except.ok.inj (hready.settings.symm.trans (hdefault fs))
  obtain ⟨-, hagain⟩ := hkeeps fs' fun _ _ => by rw [hfs]
  obtain ⟨hsucceeds, hsame, -⟩ := (hagain hread (hdefault fs') hload).2 rfl rfl
  refine ⟨hframe _ ?_, hstatus, ?_, hsucceeds, hsame,
    (hagain hother (hsettings fs') hload).1 (by decide)⟩
  · rintro (_ | ⟨_, _ | _⟩) _ _ ⟨⟩ ⟨_, _, _, _, _, _, _, hwrites, -⟩
    rw [hcheck] at hwrites
    cases hwrites
  · rintro rfl
    cases hnew.symm.trans hthere

end Command

end Shroud
