import Mathlib.Data.List.TakeWhile
import Shroud.Proofs.Sorted
import Shroud.Proofs.Success

/-! # Files at their places

A file that is written is read again, and files at other places are as they were. To write a file
changes no way to another one, since no way leads through a file.
-/

namespace Shroud

/-! ## Paths -/

namespace Text

theorem splitFrom_append (sep : Char) (pending cs ds : List Char) :
    splitFrom sep pending (cs ++ sep :: ds) = splitFrom sep pending cs ++ splitFrom sep [] ds := by
  induction cs generalizing pending with
  | nil => simp [splitFrom]
  | cons c cs ih =>
    rw [List.cons_append, splitFrom, splitFrom]
    split
    · rw [ih, List.cons_append]
    · exact ih _

theorem splitFrom_of_notMem {sep : Char} {cs : List Char} (h : sep ∉ cs) (pending : List Char) :
    splitFrom sep pending cs = [pending.reverse ++ cs] := by
  induction cs generalizing pending with
  | nil => simp [splitFrom]
  | cons c cs ih =>
    rw [List.mem_cons, not_or] at h
    rw [splitFrom, if_neg (by simpa using Ne.symm h.1), ih h.2, List.reverse_cons, List.append_assoc]
    rfl

end Text

namespace Path

/-- A name leads one step down. -/
structure IsName (name : String) : Prop where
  step : ∀ p : Place, p.step name = p ++ [name]
  noSeparator : '/' ∉ name.toList

/-- The names of a directory's path, without the empty one after a last separator. -/
def above (directory : String) : List String :=
  if directory.toList.getLast? = some '/' then
    (Text.splitFrom '/' [] directory.toList.dropLast).map String.ofList
  else names directory

theorem names_child (directory : String) {name : String} (h : IsName name) :
    names (child directory name) = above directory ++ [name] := by
  have hname : (Text.splitFrom '/' [] name.toList).map String.ofList = [name] := by
    rw [Text.splitFrom_of_notMem h.noSeparator, List.map_singleton, List.reverse_nil, List.nil_append,
      String.ofList_toList]
  unfold above child names Text.split
  split
  · rename_i hlast
    have hlast := beq_iff_eq.1 hlast
    have hsplit : (directory ++ name).toList =
        directory.toList.dropLast ++ '/' :: name.toList := by
      have hcons := List.dropLast_append_getLast? '/' hlast
      rw [String.toList_append]
      nth_rewrite 1 [← hcons]
      simp
    rw [if_pos hlast, hsplit, Text.splitFrom_append, List.map_append, hname]
  · rename_i hlast
    have hsplit : (directory ++ "/" ++ name).toList = directory.toList ++ '/' :: name.toList := by
      rw [String.toList_append, String.toList_append, List.append_assoc]
      rfl
    rw [if_neg (by simpa using hlast), hsplit, Text.splitFrom_append, List.map_append, hname]

/-- A directory's path has no other names, but perhaps an empty one at the end. -/
theorem names_eq_above (directory : String) :
    names directory = above directory ∨ names directory = above directory ++ [""] := by
  unfold above
  split
  · rename_i hlast
    right
    have hcons := List.dropLast_append_getLast? '/' hlast
    unfold names Text.split
    nth_rewrite 1 [← hcons]
    rw [Text.splitFrom_append, List.map_append]
    rfl
  · exact .inl rfl

theorem start_child {directory : String} (h : directory ≠ "") (name : String) :
    Place.start (child directory name) = Place.start directory := by
  obtain ⟨c, cs, hcs⟩ := List.exists_cons_of_ne_nil (show directory.toList ≠ [] by simpa using h)
  have hhead : (child directory name).toList.head? = directory.toList.head? := by
    unfold child
    split <;> simp [hcs]
  rw [Place.start, hhead, Place.start]

theorem utf8ByteSize_le_child (directory name : String) :
    directory.utf8ByteSize ≤ (child directory name).utf8ByteSize := by
  unfold child
  split <;> simp only [String.utf8ByteSize_append] <;> omega

end Path

namespace Files

variable {fs fs' : Files} {p q r : Place} {n : Node} {names : List String} {path : String}
  {text name : String} {more : List String} {directory : String}

theorem find?_put (hp : p.isBase = false) (q : Place) :
    (fs.put p n).find? q = if p = q then some n else fs.find? q := by
  unfold find? put
  split
  · rename_i hq
    rw [if_neg]
    rintro rfl
    rw [hp] at hq
    cases hq
  · have hbeq : (List.instBEq : BEq Place) = instBEqOfDecidableEq := lawful_beq_subsingleton _ _
    rw [hbeq]
    exact Sorted.find?_put p q n fs.nodes

theorem walk_append :
    fs.walk p (names ++ more) = .ok r ↔ ∃ q, fs.walk p names = .ok q ∧ fs.walk q more = .ok r := by
  induction names generalizing p with
  | nil => simp [walk]
  | cons name names ih =>
    rw [List.cons_append, walk, walk]
    split
    · simp
    · simp
    · split
      · simp
      · exact ih

theorem walk_singleton : fs.walk p [name] = .ok r ↔
    fs.find? p = some .directory ∧ name.utf8ByteSize ≤ Path.nameLimit ∧ r = p.step name := by
  rw [walk]
  split
  · simp_all
  · simp_all
  · rename_i hp
    rw [hp]
    split
    · simp
      omega
    · simp [walk, eq_comm]
      omega

/-- A way goes on as before, whatever is put where no directory is. -/
theorem walk_put (hp : fs.find? p ≠ some .directory) (h : fs.walk q names = .ok r) :
    (fs.put p n).walk q names = .ok r := by
  have hbase : p.isBase = false := by
    by_contra hb
    exact hp (if_pos (by simpa using hb))
  induction names generalizing q with
  | nil => exact h
  | cons name names ih =>
    rw [walk] at h ⊢
    rw [find?_put hbase]
    split at h
    · cases h
    · cases h
    · rename_i hq
      have hne : p ≠ q := by
        rintro rfl
        exact hp hq
      rw [if_neg hne, hq]
      dsimp only
      split at h
      · cases h
      · rename_i hlen
        rw [if_neg hlen]
        exact ih h

theorem locate_eq_ok : fs.locate path = .ok p ↔ path.utf8ByteSize ≤ Path.limit ∧
    fs.walk (Place.start path) (Path.names path) = .ok p := by
  unfold locate
  split
  · simp
    omega
  · rename_i h
    simp only [true_and, show path.utf8ByteSize ≤ Path.limit by omega]

theorem read_eq_ok : fs.read path = .ok text ↔
    ∃ p, fs.locate path = .ok p ∧ fs.find? p = some (.file text) := by
  unfold read
  rw [bind_eq_ok]
  refine exists_congr fun p => and_congr_right fun _ => ?_
  cases fs.find? p with
  | none => simp
  | some node => cases node <;> simp

theorem write_eq_ok : fs.write path text = .ok fs' ↔
    ∃ p, fs.locate path = .ok p ∧ fs.find? p ≠ some .directory ∧ fs' = fs.put p (.file text) := by
  unfold write
  rw [bind_eq_ok]
  refine exists_congr fun p => and_congr_right fun _ => ?_
  cases fs.find? p with
  | none => simp [eq_comm]
  | some node => cases node <;> simp [eq_comm]

theorem isBase_of_find? (hp : fs.find? p ≠ some .directory) : p.isBase = false := by
  by_contra hb
  exact hp (if_pos (by simpa using hb))

theorem locate_put (hp : fs.find? p ≠ some .directory) (h : fs.locate path = .ok q) :
    (fs.put p n).locate path = .ok q := by
  rw [locate_eq_ok] at h ⊢
  exact ⟨h.1, walk_put hp h.2⟩

/-- A written file is read again. -/
theorem read_write (h : fs.write path text = .ok fs') : fs'.read path = .ok text := by
  obtain ⟨p, hp, hdir, rfl⟩ := write_eq_ok.1 h
  refine read_eq_ok.2 ⟨p, locate_put hdir hp, ?_⟩
  rw [find?_put (isBase_of_find? hdir), if_pos rfl]

/-- The other files of the directory are as they were. -/
theorem read_write_child {name' text' : String} (hname : Path.IsName name)
    (hname' : Path.IsName name') (hne : name ≠ name')
    (h : fs.write (Path.child directory name) text = .ok fs')
    (hread : fs.read (Path.child directory name') = .ok text') :
    fs'.read (Path.child directory name') = .ok text' := by
  have hlast : ∀ {name p}, Path.IsName name → fs.locate (Path.child directory name) = .ok p →
      ∃ d : Place, p = d ++ [name] := by
    intro name p hn hp
    rw [locate_eq_ok, Path.names_child directory hn, walk_append] at hp
    obtain ⟨-, d, -, hstep⟩ := hp
    exact ⟨d, (walk_singleton.1 hstep).2.2.trans (hn.step d)⟩
  obtain ⟨p, hp, hdir, rfl⟩ := write_eq_ok.1 h
  obtain ⟨q, hq, hfile⟩ := read_eq_ok.1 hread
  obtain ⟨d, rfl⟩ := hlast hname hp
  obtain ⟨e, rfl⟩ := hlast hname' hq
  have hplace : d ++ [name] ≠ e ++ [name'] := by
    intro heq
    exact hne (List.append_singleton_inj.1 heq).2
  refine read_eq_ok.2 ⟨_, locate_put hdir hq, ?_⟩
  rw [find?_put (isBase_of_find? hdir), if_neg hplace, hfile]

/-! ## Nothing new -/

/-- The same is found at each place. -/
def Same (a b : Files) : Prop := ∀ p, a.find? p = b.find? p

theorem Same.walk {a b : Files} (h : Same a b) (p : Place) (names : List String) :
    a.walk p names = b.walk p names := by
  induction names generalizing p with
  | nil => rfl
  | cons name names ih =>
    rw [Files.walk, Files.walk, h p]
    split
    · rfl
    · rfl
    · rw [ih]

theorem Same.read {a b : Files} (h : Same a b) (path : String) : a.read path = b.read path := by
  unfold Files.read locate
  simp only [h.walk, h _]

/-- To write what a file holds changes nothing. -/
theorem write_same (h : fs.read path = .ok text) :
    ∃ fs', fs.write path text = .ok fs' ∧ Same fs' fs := by
  obtain ⟨p, hp, hfile⟩ := read_eq_ok.1 h
  have hdir : fs.find? p ≠ some .directory := by
    rw [hfile]
    nofun
  refine ⟨_, write_eq_ok.2 ⟨p, hp, hdir, rfl⟩, fun q => ?_⟩
  rw [find?_put (isBase_of_find? hdir)]
  split
  · rename_i heq
    rw [← heq, hfile]
  · rfl

theorem walk_empty (hmore : ∀ name ∈ more, name = "") (h : fs.walk p more = .ok r) : r = p := by
  induction more with
  | nil =>
    cases h
    rfl
  | cons name more ih =>
    obtain ⟨rfl, hrest⟩ := List.forall_mem_cons.1 hmore
    rw [← List.singleton_append, walk_append] at h
    obtain ⟨q, hq, hr⟩ := h
    obtain ⟨-, -, rfl⟩ := walk_singleton.1 hq
    exact ih hrest hr

/-- A directory with a file in it is made already. -/
theorem makeDirectory_of_read (hname : Path.IsName name)
    (h : fs.read (Path.child directory name) = .ok text) :
    fs.makeDirectory directory = (.ok (), fs) := by
  by_cases hd : directory = ""
  · rw [hd]
    rfl
  obtain ⟨_, hp, -⟩ := read_eq_ok.1 h
  rw [locate_eq_ok, Path.names_child directory hname, Path.start_child hd, walk_append] at hp
  obtain ⟨hlen, d, hd', hstep⟩ := hp
  obtain ⟨hdir, -⟩ := walk_singleton.1 hstep
  have hwalk : fs.walk (Place.start directory) (Path.names directory) = .ok d := by
    rcases Path.names_eq_above directory with heq | heq
    · rw [heq, hd']
    · rw [heq, walk_append]
      exact ⟨d, hd', walk_singleton.2 ⟨hdir, by decide, rfl⟩⟩
  have hone : fs.makeOne (Place.start directory) (Path.names directory) = .error .occupied := by
    have hsplit := List.takeWhile_append_dropWhile (p := String.isEmpty)
      (l := (Path.names directory).reverse)
    have hnames : Path.names directory =
        ((Path.names directory).reverse.dropWhile String.isEmpty).reverse ++
          ((Path.names directory).reverse.takeWhile String.isEmpty).reverse := by
      rw [← List.reverse_append, hsplit, List.reverse_reverse]
    rw [hnames, walk_append] at hwalk
    obtain ⟨q, hq, hrest⟩ := hwalk
    obtain rfl := walk_empty (fun name hmem => by
      simpa using List.mem_takeWhile_imp (List.mem_reverse.1 hmem)) hrest
    rw [makeOne, hq]
    simp only [bind, Except.bind, hdir, Option.isSome_some, if_true]
    split <;> rfl
  have hnew : fs.makeNew (Place.start directory) (Path.names directory) = (.ok (), fs) := by
    rw [makeNew, hone]
    simp [isDirectory, hwalk, hdir]
  have hlimit := Path.utf8ByteSize_le_child directory name
  rw [makeDirectory, if_neg (by omega), makeAfter, hone]
  exact hnew

end Files

end Shroud
