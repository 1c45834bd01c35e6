import ClassSugar.Command.Directory
import Mathlib.Data.List.Basic

/-!
# What writing a file changes

A path is followed name by name to a place, and a file is written there. This module says what is
different afterwards: at the place stands the file, and nothing else has changed
(`Directory.exists_writes`). In particular no directory is made and none is removed, so every path
leads where it led before (`Directory.resolve_eq_ok_iff`). After any number of writes a file
that was written keeps its text until something is written at the same place
(`Directory.read_writeAll?`). One file keeps no text at all, the null device.

That nothing else changes is not quite obvious, because a directory may be there only for what is in
it. A new file could bring the directories above it into being. They are there already: following a
path stops where there is no directory, so all that is above a place which was reached exists
(`Directory.Reached`).

Two files that are put into one directory under different names stand at different places
(`Directory.getLast?_resolve_join`), whichever way the directory is written.
-/

namespace ClassSugar

/-! ### Parts of a text -/

namespace Text

variable {separator : Char}

theorem partsFrom_of_notMem (part : List Char) {cs : List Char} (h : separator ∉ cs) :
    partsFrom separator part cs = [String.ofList (part.reverse ++ cs)] := by
  induction cs generalizing part with
  | nil => simp [partsFrom]
  | cons c cs ih =>
    rw [List.mem_cons, not_or] at h
    rw [partsFrom, if_neg (Ne.symm h.1), ih _ h.2]
    simp

theorem partsFrom_append (part cs ds : List Char) :
    partsFrom separator part (cs ++ separator :: ds) =
      partsFrom separator part cs ++ partsFrom separator [] ds := by
  induction cs generalizing part with
  | nil => simp [partsFrom]
  | cons c cs ih =>
    rw [List.cons_append, partsFrom, partsFrom]
    split
    · rw [ih, List.cons_append]
    · rw [ih]

theorem notMem_of_mem_partsFrom {part cs : List Char} (hpart : separator ∉ part) {s : String}
    (h : s ∈ partsFrom separator part cs) : separator ∉ s.toList := by
  induction cs generalizing part with
  | nil =>
    rw [partsFrom, List.mem_singleton] at h
    simpa [h] using hpart
  | cons c cs ih =>
    rw [partsFrom] at h
    split at h
    · rcases List.mem_cons.mp h with rfl | h
      · simpa using hpart
      · exact ih (List.not_mem_nil) h
    · rename_i hc
      exact ih (by simp [hpart, Ne.symm hc]) h

end Text

namespace Command

/-! ### Names and paths -/

namespace Path

/-- A name that leads from a directory to something in it. -/
structure IsName (name : String) : Prop where
  ne_empty : name ≠ ""
  ne_dot : name ≠ "."
  ne_up : name ≠ ".."
  noSlash : '/' ∉ name.toList

theorem isName_of_fileName? {path name : String} (h : fileName? path = some name) :
    IsName name := by
  unfold fileName? at h
  rw [Option.filter_eq_some_iff] at h
  have hmem := List.mem_filter.mp (List.mem_of_getLast? h.1)
  have hdots : name ≠ "" ∧ name ≠ "." := by simpa using hmem.2
  exact ⟨hdots.1, hdots.2, by simpa using h.2, Text.notMem_of_mem_partsFrom List.not_mem_nil hmem.1⟩

/-- The last part of the path of a file is its name. -/
theorem exists_parts_join (directory : String) {name : String} (h : IsName name) :
    ∃ parts, Text.parts '/' (join directory name) = parts ++ [name] := by
  have hname : Text.partsFrom '/' [] name.toList = [name] := by
    rw [Text.partsFrom_of_notMem [] h.noSlash]
    simp
  unfold join Text.parts
  split
  · rename_i hslash
    obtain ⟨cs, hcs⟩ : ∃ cs, directory.toList = cs ++ ['/'] :=
      List.getLast?_eq_some_iff.mp (by simpa [Text.endsWithChar] using hslash)
    refine ⟨Text.partsFrom '/' [] cs, ?_⟩
    rw [String.toList_append, hcs, List.append_assoc, List.singleton_append,
      Text.partsFrom_append, hname]
  · refine ⟨Text.partsFrom '/' [] directory.toList, ?_⟩
    have hlist : (directory ++ "/" ++ name).toList = directory.toList ++ '/' :: name.toList := by
      simp
    rw [hlist, Text.partsFrom_append, hname]

end Path

namespace Directory

/-! ### Entries -/

theorem lookup_put (place other : List String) (text : String)
    (entries : List (List String × Entry)) :
    (put place text entries).lookup other =
      if other = place then some (.file text) else entries.lookup other := by
  induction entries with
  | nil => grind [put]
  | cons e rest ih => grind [put]

/-- An entry that is put adds its place and takes none away. -/
theorem exists_mem_put {place : List String} {text : String}
    {entries : List (List String × Entry)} (p : List String → Prop) :
    (∃ e ∈ put place text entries, p e.1) ↔ p place ∨ ∃ e ∈ entries, p e.1 := by
  induction entries with
  | nil => simp [put]
  | cons e rest ih =>
    rw [put]
    split
    · rename_i h
      simp [h]
    · rw [List.exists_mem_cons_iff, ih, List.exists_mem_cons_iff]
      exact or_left_comm

variable {d d' : Directory} {place : List String}

/-- Whether something is known at a place or below it. -/
def holds (d : Directory) (place : List String) : Bool :=
  (d.entries ++ common).any fun e => place.isPrefixOf e.1

theorem holds_iff :
    d.holds place = true ↔
      (∃ e ∈ d.entries, place <+: e.1) ∨ ∃ e ∈ common, place <+: e.1 := by
  unfold holds
  rw [List.any_append, Bool.or_eq_true, List.any_eq_true, List.any_eq_true]
  simp only [List.isPrefixOf_iff_prefix]

theorem get?_of_lookup {entry : Entry} (h : (d.entries ++ common).lookup place = some entry) :
    d.get? place = some entry := by
  unfold get?
  dsimp only
  rw [h]

theorem get?_of_lookup_eq_none (h : (d.entries ++ common).lookup place = none) :
    d.get? place = if isAbove place || d.holds place then some .directory else none := by
  unfold get?
  dsimp only
  rw [h]
  rfl

/-- What stands at a place depends on its entry and on whether there is something below. -/
theorem get?_congr
    (hlookup : (d'.entries ++ common).lookup place = (d.entries ++ common).lookup place)
    (hholds : d'.holds place = d.holds place) : d'.get? place = d.get? place := by
  cases h : (d.entries ++ common).lookup place with
  | some entry => rw [get?_of_lookup h, get?_of_lookup (hlookup.trans h)]
  | none =>
    rw [get?_of_lookup_eq_none h, get?_of_lookup_eq_none (hlookup.trans h), hholds]

/-! ### Reaching a place -/

/-- Everything above a place is there. -/
def Reached (d : Directory) (place : List String) : Prop :=
  ∀ above, above <+: place → above ≠ place → d.get? above ≠ none

theorem get?_nil_ne_none : d.get? [] ≠ none := by
  cases h : (d.entries ++ common).lookup [] with
  | some entry =>
    rw [get?_of_lookup h]
    exact Option.some_ne_none entry
  | none =>
    rw [get?_of_lookup_eq_none h]
    exact Option.some_ne_none _

/-- A step into a directory: what is above the new place is the directory or above it. -/
theorem Reached.append (h : d.Reached place) (hplace : d.get? place = some .directory)
    (name : String) : d.Reached (place ++ [name]) := by
  intro above habove hne
  have habove : above <+: place := by
    rw [List.prefix_concat_iff] at habove
    exact habove.resolve_left hne
  by_cases heq : above = place
  · rw [heq, hplace]
    exact Option.some_ne_none _
  · exact h above habove heq

theorem Reached.of_prefix {front : List String} (h : d.Reached place) (hfront : front <+: place) :
    d.Reached front := by
  intro above habove hne
  refine h above (habove.trans hfront) fun heq => hne ?_
  exact habove.eq_of_length_le (heq ▸ hfront.length_le)

theorem Reached.parent (h : d.Reached place) (hplace : d.get? place = some .directory) :
    d.Reached (parent place) := by
  unfold Directory.parent
  split
  · rename_i hroot
    rwa [hroot] at h
  · split
    · exact h.append hplace ".."
    · exact h.of_prefix (List.dropLast_prefix place)

theorem Reached.follow {place names result} (h : d.Reached place)
    (hfollow : d.follow place names = .ok result) : d.Reached result := by
  -- Each name is followed from a directory, which is what the two kinds of steps ask for.
  induction names generalizing place with
  | nil =>
    cases hfollow
    exact h
  | cons name rest ih =>
    rw [Directory.follow] at hfollow
    split at hfollow
    · cases hfollow
    · cases hfollow
    · rename_i hplace
      split at hfollow
      · exact ih h hfollow
      · split at hfollow
        · exact ih (h.parent hplace) hfollow
        · split at hfollow
          · cases hfollow
          · exact ih (h.append hplace name) hfollow

theorem reached_nil : d.Reached [] := fun _ habove hne =>
  absurd (List.prefix_nil.mp habove) hne

/-- Above the root there is only the working directory, as far as places go. -/
theorem reached_root : d.Reached root := by
  intro above habove hne
  rcases List.prefix_cons_iff.mp habove with rfl | ⟨rest, rfl, hrest⟩
  · exact get?_nil_ne_none
  · rw [List.prefix_nil.mp hrest] at hne
    exact absurd rfl hne

theorem reached_of_resolve {path : String} (h : d.resolve path = .ok place) : d.Reached place := by
  unfold resolve at h
  split at h
  · cases h
  · refine Reached.follow ?_ h
    split
    · exact reached_root
    · exact reached_nil

/-! ### Writing one file -/

section Put

variable (text : String)

theorem get?_put_self :
    (⟨put place text d.entries⟩ : Directory).get? place = some (.file text) := by
  apply get?_of_lookup
  rw [List.lookup_append, lookup_put, if_pos rfl]
  rfl

/-- If all that is above a place is there, then a file that is put there changes nothing else. -/
theorem get?_put_of_ne (h : d.Reached place) {other : List String} (hne : other ≠ place) :
    (⟨put place text d.entries⟩ : Directory).get? other = d.get? other := by
  have hlookup : (put place text d.entries ++ common).lookup other =
      (d.entries ++ common).lookup other := by
    rw [List.lookup_append, List.lookup_append, lookup_put, if_neg hne]
  have hholds : (⟨put place text d.entries⟩ : Directory).holds other = true ↔
      other <+: place ∨ d.holds other = true := by
    rw [holds_iff, holds_iff, exists_mem_put, or_assoc]
  by_cases habove : other <+: place
  · -- The file is below `other`, which was a directory already, or a file.
    have hthere : d.get? other ≠ none := h other habove hne
    cases hentry : (d.entries ++ common).lookup other with
    | some entry => rw [get?_of_lookup hentry, get?_of_lookup (hlookup.trans hentry)]
    | none =>
      rw [get?_of_lookup_eq_none hentry] at hthere ⊢
      rw [get?_of_lookup_eq_none (hlookup.trans hentry), hholds.mpr (.inl habove), Bool.or_true]
      split at hthere
      · rename_i hdirectory
        rw [hdirectory]
      · exact absurd rfl hthere
  · refine get?_congr hlookup (Bool.eq_iff_iff.mpr ?_)
    rw [hholds, or_iff_right habove]

end Put

/-- What a file that is written at a place changes. -/
structure Writes (d d' : Directory) (place : List String) (text : String) : Prop where
  /-- The null device keeps nothing. -/
  device : place = nullDevice → d' = d
  there : place ≠ nullDevice → d'.get? place = some (.file text)
  elsewhere : ∀ other, other ≠ place → d'.get? other = d.get? other
  directories : ∀ other, d'.get? other = some .directory ↔ d.get? other = some .directory

/-- **Writing changes one place**, the one that the path leads to, and makes no directory. -/
theorem exists_writes {path text : String} (h : d.write? path text = some d') :
    ∃ place, d.resolve path = .ok place ∧ d.Writes d' place text := by
  unfold write? at h
  split at h
  · cases h
  · rename_i place hresolve
    refine ⟨place, hresolve, ?_⟩
    have hreached : d.Reached place := reached_of_resolve hresolve
    split at h
    · cases h
    · rename_i hdirectory
      rw [Option.some.injEq] at h
      by_cases hdevice : place = nullDevice
      · rw [if_pos hdevice] at h
        subst h
        exact ⟨fun _ => rfl, fun hne => absurd hdevice hne, fun _ _ => rfl, fun _ => Iff.rfl⟩
      · rw [if_neg hdevice] at h
        subst h
        refine ⟨fun heq => absurd heq hdevice, fun _ => get?_put_self text,
          fun other hne => get?_put_of_ne text hreached hne, fun other => ?_⟩
        -- The place itself was no directory, and is a file now.
        by_cases heq : other = place
        · rw [heq, get?_put_self]
          simpa using hdirectory
        · rw [get?_put_of_ne text hreached heq]

/-- Where names lead depends on the directories alone. -/
theorem follow_eq_ok_iff
    (h : ∀ other, d'.get? other = some .directory ↔ d.get? other = some .directory)
    (place names result : List String) :
    d'.follow place names = .ok result ↔ d.follow place names = .ok result := by
  induction names generalizing place with
  | nil => rfl
  | cons name rest ih =>
    by_cases hplace : d.get? place = some .directory
    · rw [follow, follow, hplace, (h place).mpr hplace]
      dsimp only
      split
      · exact ih place
      · split
        · exact ih _
        · split
          · rfl
          · exact ih _
    · -- Where there is no directory, no name is followed.
      have hstuck : ∀ d : Directory, d.get? place ≠ some .directory →
          d.follow place (name :: rest) ≠ .ok result := by
        intro d hd heq
        rw [follow] at heq
        split at heq
        · cases heq
        · cases heq
        · exact hd ‹_›
      exact iff_of_false (hstuck d' (mt (h place).mp hplace)) (hstuck d hplace)

theorem resolve_eq_ok_iff
    (h : ∀ other, d'.get? other = some .directory ↔ d.get? other = some .directory)
    (path : String) (place : List String) :
    d'.resolve path = .ok place ↔ d.resolve path = .ok place := by
  unfold resolve
  split
  · rfl
  · exact follow_eq_ok_iff h _ _ _

theorem read_eq_ok_iff {path text : String} :
    d.read path = .ok text ↔ ∃ place, d.resolve path = .ok place ∧ d.get? place = some (.file text)
    := by
  unfold read
  cases d.resolve path with
  | error e => simp
  | ok place =>
    cases hentry : d.get? place with
    | none => simp [hentry]
    | some entry => cases entry <;> simp [hentry]

/-- A file that was written is read back, unless it is the null device. -/
theorem read_write?_self {path text : String} (h : d.write? path text = some d')
    (hdevice : d.resolve path ≠ .ok nullDevice) : d'.read path = .ok text := by
  obtain ⟨place, hresolve, hwrites⟩ := exists_writes h
  refine read_eq_ok_iff.mpr ⟨place, (resolve_eq_ok_iff hwrites.directories _ _).mpr hresolve, ?_⟩
  refine hwrites.there fun heq => hdevice ?_
  rw [hresolve, heq]

/-- A file at another place is left alone, and so is the null device. -/
theorem read_write?_of_ne {path other text read : String} (h : d.write? path text = some d')
    (hne : d.resolve other = .ok nullDevice ∨ d.resolve path ≠ d.resolve other) :
    d'.read other = .ok read ↔ d.read other = .ok read := by
  obtain ⟨place, hresolve, hwrites⟩ := exists_writes h
  have hsame : ∀ otherPlace, d.resolve other = .ok otherPlace →
      d'.get? otherPlace = d.get? otherPlace := by
    intro otherPlace hother
    by_cases heq : otherPlace = place
    · rcases hne with hdevice | hne
      · have hnull : place = nullDevice := by
          rw [← heq]
          simpa [hother] using hdevice
        rw [hwrites.device hnull]
      · exact absurd (by rw [hresolve, hother, heq]) hne
    · exact hwrites.elsewhere otherPlace heq
  rw [read_eq_ok_iff, read_eq_ok_iff]
  refine exists_congr fun otherPlace => ?_
  rw [resolve_eq_ok_iff hwrites.directories]
  refine and_congr_right fun hother => ?_
  rw [hsame otherPlace hother]

/-! ### Writing several files -/

/-- The directory with files written one after another, if all of them can be. -/
def writeAll? (d : Directory) (files : List (String × String)) : Option Directory :=
  files.foldlM (fun d file => d.write? file.1 file.2) d

theorem writeAll?_cons {file : String × String} {files : List (String × String)} :
    d.writeAll? (file :: files) = (d.write? file.1 file.2).bind fun d => d.writeAll? files :=
  rfl

theorem writeAll?_append {front back : List (String × String)} :
    d.writeAll? (front ++ back) = (d.writeAll? front).bind fun d => d.writeAll? back := by
  unfold writeAll?
  rw [List.foldlM_append]
  rfl

theorem resolve_writeAll? {files : List (String × String)} (h : d.writeAll? files = some d')
    (path : String) (place : List String) :
    d'.resolve path = .ok place ↔ d.resolve path = .ok place := by
  induction files generalizing d with
  | nil =>
    cases h
    rfl
  | cons file files ih =>
    rw [writeAll?_cons, Option.bind_eq_some_iff] at h
    obtain ⟨next, hwrite, hrest⟩ := h
    obtain ⟨_, -, hwrites⟩ := exists_writes hwrite
    rw [ih hrest, resolve_eq_ok_iff hwrites.directories]

/-- A file keeps its text while others are written. -/
theorem read_writeAll?_of_ne {files : List (String × String)} {path text : String}
    (h : d.writeAll? files = some d')
    (hne : d.resolve path = .ok nullDevice ∨
      ∀ file ∈ files, ∀ place, d.resolve path = .ok place → d.resolve file.1 ≠ .ok place) :
    d'.read path = .ok text ↔ d.read path = .ok text := by
  induction files generalizing d with
  | nil =>
    cases h
    rfl
  | cons file files ih =>
    rw [writeAll?_cons, Option.bind_eq_some_iff] at h
    obtain ⟨next, hwrite, hrest⟩ := h
    obtain ⟨place, hresolve, hwrites⟩ := exists_writes hwrite
    -- No path leads anywhere else after the first file is written.
    have hsame := resolve_eq_ok_iff hwrites.directories
    have hnext : next.read path = .ok text ↔ d.read path = .ok text := by
      apply read_write?_of_ne hwrite
      refine hne.imp_right fun hne heq => ?_
      exact hne file List.mem_cons_self place (heq ▸ hresolve) hresolve
    refine (ih hrest ?_).trans hnext
    rw [hsame]
    refine hne.imp_right fun hne other hother place hplace => ?_
    rw [Ne, hsame]
    exact hne other (List.mem_cons_of_mem _ hother) place ((hsame _ _).mp hplace)

/-- **The last file that is written at a place stays there.** -/
theorem read_writeAll? {before after : List (String × String)} {path text : String}
    (h : d.writeAll? (before ++ (path, text) :: after) = some d')
    (hdevice : d.resolve path ≠ .ok nullDevice)
    (hafter : ∀ file ∈ after, ∀ place, d.resolve path = .ok place → d.resolve file.1 ≠ .ok place) :
    d'.read path = .ok text := by
  rw [writeAll?_append, Option.bind_eq_some_iff] at h
  obtain ⟨first, hbefore, h⟩ := h
  rw [writeAll?_cons, Option.bind_eq_some_iff] at h
  obtain ⟨second, hwrite, hrest⟩ := h
  obtain ⟨_, -, hwrites⟩ := exists_writes hwrite
  have hfirst := resolve_writeAll? hbefore
  have hsecond : ∀ path place, second.resolve path = .ok place ↔ d.resolve path = .ok place :=
    fun path place => (resolve_eq_ok_iff hwrites.directories path place).trans (hfirst path place)
  have hread : second.read path = .ok text :=
    read_write?_self hwrite (by rwa [Ne, hfirst])
  refine (read_writeAll?_of_ne hrest (.inr ?_)).mpr hread
  intro file hfile place hplace
  rw [Ne, hsecond]
  exact hafter file hfile place ((hsecond _ _).mp hplace)

/-! ### Files in one directory -/

theorem follow_append (place front back : List String) :
    d.follow place (front ++ back) = (d.follow place front).bind fun place => d.follow place back := by
  induction front generalizing place with
  | nil => rfl
  | cons name rest ih =>
    rw [List.cons_append, follow, follow]
    split
    · rfl
    · rfl
    · split
      · exact ih place
      · split
        · exact ih _
        · split
          · rfl
          · exact ih _

/-- A path that ends in a name leads to a place that ends in it. -/
theorem getLast?_follow {place names result : List String} {name : String} (hname : Path.IsName name)
    (h : d.follow place (names ++ [name]) = .ok result) : result.getLast? = some name := by
  rw [follow_append] at h
  cases hfront : d.follow place names with
  | error e =>
    rw [hfront] at h
    cases h
  | ok above =>
    rw [hfront] at h
    change d.follow above [name] = .ok result at h
    rw [follow] at h
    split at h
    · cases h
    · cases h
    · rw [if_neg (by simp [hname.ne_empty, hname.ne_dot]), if_neg hname.ne_up] at h
      split at h
      · cases h
      · cases h
        exact List.getLast?_concat

/-- A file in a directory stands at a place that ends in its name. -/
theorem getLast?_resolve_join {directory name : String} {place : List String}
    (hname : Path.IsName name) (h : d.resolve (Path.join directory name) = .ok place) :
    place.getLast? = some name := by
  obtain ⟨parts, hparts⟩ := Path.exists_parts_join directory hname
  unfold resolve at h
  rw [hparts] at h
  split at h
  · cases h
  · exact getLast?_follow hname h

end Directory

end Command

end ClassSugar
