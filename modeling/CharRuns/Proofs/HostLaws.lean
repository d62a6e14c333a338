import CharRuns.Workspace
import Mathlib.Data.List.Basic
import Mathlib.Logic.Function.Basic

/-!
# Lawful hosts

A host is lawful, for a view of its state, if it reads what is there and changes nothing by it, and
if a write happens whole or not at all. What is written goes where the path leads, to a file or to
the standard output. A workspace is lawful (`Workspace.lawful_host`): the routes are its files, and
a file that has been put leaves every other as it was (`content?_put`) and can be found on the path
it was put on (`follow_put`).
-/

namespace CharRuns

/-- What a run can change: what the files hold, and what the output streams have taken. -/
structure Outside (File : Type) where
  content? : File → Option ByteArray
  printed : String
  warned : String

/-- Where a text can be put. -/
inductive Goal (File : Type) where
  | file (file : File)
  /-- The standard output, which a path may lead to as well. -/
  | output

namespace Outside

variable {File : Type}

/-- A file holds something else. -/
def write [DecidableEq File] (o : Outside File) (file : File) (content : ByteArray) :
    Outside File :=
  { o with content? := Function.update o.content? file (some content) }

/-- The standard output has taken a text. -/
def print (o : Outside File) (text : String) : Outside File :=
  { o with printed := o.printed ++ text }

/-- The standard error has taken a text. -/
def warn (o : Outside File) (text : String) : Outside File :=
  { o with warned := o.warned ++ text }

/-- A text has gone to a goal, whole. -/
def put [DecidableEq File] (o : Outside File) (text : String) : Goal File → Outside File
  | .file file => o.write file text.toUTF8
  | .output => o.print text

theorem print_empty (o : Outside File) : o.print "" = o := by
  simp [print]

theorem print_print (o : Outside File) (first second : String) :
    (o.print first).print second = o.print (first ++ second) := by
  simp [print, String.append_assoc]

theorem warn_empty (o : Outside File) : o.warn "" = o := by
  simp [warn]

theorem warn_warn (o : Outside File) (first second : String) :
    (o.warn first).warn second = o.warn (first ++ second) := by
  simp [warn, String.append_assoc]

end Outside

namespace Host

/-- How to see, in the state of a host, what is outside, and where a path leads. -/
structure View (σ File : Type) where
  outside : σ → Outside File
  goal? : σ → String → Option (Goal File)

variable {σ File : Type}

/-- What the file on a path holds. -/
def View.contentAt? (view : View σ File) (s : σ) (path : String) : Option ByteArray :=
  match view.goal? s path with
  | some (.file file) => (view.outside s).content? file
  | some .output | none => none

/-- What a stream takes it takes whole or not at all. -/
structure Takes (view : View σ File) (stream : String → StateM σ (Except String Unit))
    (take : Outside File → String → Outside File) : Prop where
  ok {text : String} {s s' : σ} :
    (stream text).run s = (.ok (), s') → view.outside s' = take (view.outside s) text
  error {text reason : String} {s s' : σ} :
    (stream text).run s = (.error reason, s') → view.outside s' = view.outside s

/-- The host reads what is there, and what it writes it writes whole or not at all. -/
structure Lawful [DecidableEq File] (host : Host (StateM σ)) (view : View σ File) : Prop where
  outside_readFile {path : String} {s s' : σ} {result : Except String ByteArray} :
    (host.readFile path).run s = (result, s') → view.outside s' = view.outside s
  readFile_ok {path : String} {s s' : σ} {content : ByteArray} :
    (host.readFile path).run s = (.ok content, s') → view.contentAt? s path = some content
  writeFile_ok {path text : String} {s s' : σ} :
    (host.writeFile path text).run s = (.ok (), s') →
      ∃ goal, view.goal? s' path = some goal ∧ view.outside s' = (view.outside s).put text goal
  writeFile_error {path text reason : String} {s s' : σ} :
    (host.writeFile path text).run s = (.error reason, s') → view.outside s' = view.outside s
  print : Takes view host.print Outside.print
  warn : Takes view host.warn Outside.warn
  outside_giveUp {s s' : σ} : host.giveUp.run s = ((), s') →
    ∃ text, view.outside s' = (view.outside s).warn text

end Host

namespace Workspace

variable {w : Workspace} {route other : Route} {content : ByteArray}

/-- What the file at the end of a route holds. -/
def content? (w : Workspace) (route : Route) : Option ByteArray :=
  match w.nodeAt? route with
  | some (.file content) => some content
  | some .directory | some .output | none => none

/-- The goal at a place. Only below the working directory are there files. -/
def goalAt? (w : Workspace) (place : Place) : Option (Goal Route) :=
  match w.lookup? place, place with
  | some (.file _), .below route => some (.file route)
  | some .output, _ => some .output
  | _, _ => none

/-- Where a path leads. -/
def goal? (w : Workspace) (path : String) : Option (Goal Route) :=
  match (Pathname.ofText path).bind w.resolve with
  | .ok place => w.goalAt? place
  | .error _ => none

/-- A workspace with the routes as its files. -/
def view : Host.View Workspace Route where
  outside w := ⟨w.content?, w.printed, w.warned⟩
  goal? := goal?

theorem ne_nil_of_nodeAt? (h : w.nodeAt? route ≠ some .directory) : route ≠ [] := by
  rintro rfl
  exact h rfl

section Put

theorem lookup_filter_of_ne (h : other ≠ route) : ∀ nodes : List (Route × Node),
    (nodes.filter (·.1 ≠ route)).lookup other = nodes.lookup other
  | [] => rfl
  | (r, node) :: nodes => by
    have ih := lookup_filter_of_ne h nodes
    by_cases hr : r = route
    · have hne : (other == r) = false := by simpa [hr] using h
      rw [List.filter_cons_of_neg (by simpa using hr), ih, List.lookup_cons, hne]
    · rw [List.filter_cons_of_pos (by simpa using hr), List.lookup_cons, List.lookup_cons, ih]

theorem lookup_put_of_ne (h : other ≠ route) :
    (w.put route content).nodes.lookup other = w.nodes.lookup other := by
  have hne : (other == route) = false := by simpa using h
  rw [put, List.lookup_cons, hne, lookup_filter_of_ne h]

theorem nodeAt?_put_self (h : route ≠ []) :
    (w.put route content).nodeAt? route = some (.file content) := by
  rw [nodeAt?, if_neg h, put, List.lookup_cons_self]

/-- A file that is put at one route leaves the files at all others. -/
theorem content?_put (h : w.nodeAt? route ≠ some .directory) (content : ByteArray) :
    (w.put route content).content? = Function.update w.content? route (some content) := by
  funext other
  by_cases hother : other = route
  · rw [hother, Function.update_self, Workspace.content?,
      nodeAt?_put_self (ne_nil_of_nodeAt? h)]
  · rw [Function.update_of_ne hother, Workspace.content?, Workspace.content?, nodeAt?, nodeAt?,
      lookup_put_of_ne hother]
    by_cases hnil : other = []
    · rw [if_pos hnil, if_pos hnil]
    · rw [if_neg hnil, if_neg hnil]
      rcases w.nodes.lookup other with _ | node
      · split_ifs <;> rfl
      · rfl

/-- What has a node below it still has one: the node is kept, or gives way to one at its route. -/
theorem any_isPrefixOf_put (h : (w.nodes.any fun node => other.isPrefixOf node.1) = true) :
    ((w.put route content).nodes.any fun node => other.isPrefixOf node.1) = true := by
  obtain ⟨node, hnode, hprefix⟩ := List.any_eq_true.1 h
  refine List.any_eq_true.2 ?_
  by_cases hroute : node.1 = route
  · exact ⟨_, List.mem_cons_self, hroute ▸ hprefix⟩
  · exact ⟨node, List.mem_cons_of_mem _ (List.mem_filter.2 ⟨hnode, by simpa using hroute⟩), hprefix⟩

/-- A directory stays one, wherever else a file is put. -/
theorem nodeAt?_put_of_directory (h : w.nodeAt? route ≠ some .directory)
    (hother : w.nodeAt? other = some .directory) :
    (w.put route content).nodeAt? other = some .directory := by
  have hne : other ≠ route := by
    rintro rfl
    exact h hother
  unfold nodeAt? at hother ⊢
  rw [lookup_put_of_ne hne]
  by_cases hnil : other = []
  · rw [if_pos hnil]
  rw [if_neg hnil] at hother ⊢
  rcases hlookup : w.nodes.lookup other with _ | node <;> rw [hlookup] at hother
  · refine if_pos (any_isPrefixOf_put ?_)
    by_contra hnone
    simp [hnone] at hother
  · exact hother

theorem lookup?_put_of_directory (h : w.nodeAt? route ≠ some .directory) :
    ∀ {place : Place}, w.lookup? place = some .directory →
      (w.put route content).lookup? place = some .directory
  | .below _, hplace => nodeAt?_put_of_directory h hplace
  | .above, _ | .root, _ | .devices, _ => rfl

/-- What could be followed can still be followed, to the same place. -/
theorem follow_put (h : w.nodeAt? route ≠ some .directory) (content : ByteArray) {goal : Place} :
    ∀ {components : List String} {place : Place}, w.follow place components = .ok goal →
      (w.put route content).follow place components = .ok goal
  | [], _, hgoal => hgoal
  | component :: components, place, hgoal => by
    unfold follow at hgoal ⊢
    split at hgoal
    · -- Where a step was taken there was a directory, so no file has been put there.
      rename_i hdirectory
      rw [lookup?_put_of_directory h hdirectory]
      split at hgoal
      · exact follow_put h content hgoal
      · cases hgoal
    all_goals cases hgoal

end Put

theorem resolve_of_target {path : Pathname} {place : Place} (h : w.target path = .ok place) :
    w.resolve path = .ok place := by
  unfold target at h
  split at h
  · exact h
  · split at h <;> cases h

theorem goal?_of_resolve {path : String} {place : Place}
    (h : (Pathname.ofText path).bind w.resolve = .ok place) : w.goal? path = w.goalAt? place := by
  rw [goal?, h]

theorem exists_of_lookup?_file {place : Place} (h : w.lookup? place = some (.file content)) :
    ∃ route, place = .below route ∧ w.content? route = some content := by
  cases place with
  | below route => exact ⟨route, rfl, by rw [content?, show w.nodeAt? route = _ from h]⟩
  | above | root | devices | output => cases h

theorem contentAt?_of_readFile {path : String} (h : w.readFile path = .ok content) :
    view.contentAt? w path = some content := by
  unfold Workspace.readFile at h
  split at h
  · cases h
  rename_i place hplace
  split at h
  · rename_i found hfound
    cases h
    obtain ⟨route, rfl, hcontent⟩ := exists_of_lookup?_file hfound
    have hgoal : view.goal? w path = some (.file route) := by
      refine (goal?_of_resolve hplace).trans ?_
      simp only [goalAt?, hfound]
    rw [Host.View.contentAt?, hgoal]
    exact hcontent
  · cases h
  · cases h
  · cases h

theorem outside_of_print {w' : Workspace} {text : String} (h : w.print text = .ok w') :
    view.outside w' = (view.outside w).print text := by
  unfold Workspace.print at h
  split_ifs at h
  cases h
  rfl

/-- What is found does not depend on what has been printed. -/
theorem follow_printed (w : Workspace) (text : String) : ∀ (components : List String)
    (place : Place), Workspace.follow { w with printed := text } place components
      = w.follow place components
  | [], _ => rfl
  | component :: components, place => by
    have hlookup : Workspace.lookup? { w with printed := text } place = w.lookup? place := by
      cases place <;> rfl
    simp only [follow, hlookup, follow_printed w text components]

theorem goal?_of_print {w' : Workspace} {text : String} (h : w.print text = .ok w')
    (path : String) : w'.goal? path = w.goal? path := by
  unfold Workspace.print at h
  split_ifs at h
  cases h
  have hresolve : Workspace.resolve { w with printed := w.printed ++ text } = w.resolve :=
    funext fun path => follow_printed w _ path.components path.start
  have hgoal (place : Place) : Workspace.goalAt? { w with printed := w.printed ++ text } place
      = w.goalAt? place := by
    cases place <;> rfl
  simp only [goal?, hresolve, hgoal]

/-- The path to a file that has been put leads to it. -/
theorem goal?_put {path : String} (hfree : w.nodeAt? route ≠ some .directory)
    (h : (Pathname.ofText path).bind w.resolve = .ok (.below route)) (content : ByteArray) :
    (w.put route content).goal? path = some (.file route) := by
  have hput : (Pathname.ofText path).bind (w.put route content).resolve = .ok (.below route) := by
    rcases hpathname : Pathname.ofText path with refusal | pathname <;> rw [hpathname] at h
    · cases h
    · exact follow_put hfree content h
  have hself : (w.put route content).nodeAt? route = some (.file content) :=
    nodeAt?_put_self (ne_nil_of_nodeAt? hfree)
  rw [goal?_of_resolve hput]
  simp only [goalAt?, lookup?, hself]

theorem outside_put (hfree : w.nodeAt? route ≠ some .directory) (text : String) :
    view.outside (w.put route text.toUTF8) = (view.outside w).put text (.file route) := by
  show Outside.mk _ _ _ = _
  rw [content?_put hfree]
  rfl

/-- What is written goes where the path leads, and nothing else has changed. -/
theorem exists_of_writeFile {w' : Workspace} {path text : String}
    (h : w.writeFile path text = .ok w') :
    ∃ goal, view.goal? w' path = some goal ∧ view.outside w' = (view.outside w).put text goal := by
  unfold Workspace.writeFile at h
  rcases hpathname : Pathname.ofText path with refusal | pathname <;> rw [hpathname] at h
  · cases h
  rcases htarget : w.target pathname with refusal | place <;>
    simp only [Except.bind, htarget] at h
  · cases h
  have hplace : (Pathname.ofText path).bind w.resolve = .ok place := by
    rw [hpathname]
    exact resolve_of_target htarget
  split at h
  · cases h
  · -- The device takes the text, and the path still leads to it.
    rename_i houtput
    refine ⟨.output, ?_, outside_of_print h⟩
    show w'.goal? path = _
    rw [goal?_of_print h, goal?_of_resolve hplace]
    simp only [goalAt?, houtput]
  · rename_i route hfree _
    obtain rfl := Except.ok.inj h
    exact ⟨.file route, goal?_put hfree hplace _, outside_put hfree text⟩
  · cases h

section Change

variable {f : Workspace → Except Pathname.Refusal Workspace} {w' : Workspace}

theorem eq_ok_of_change (h : (change f).run w = (.ok (), w')) : f w = .ok w' := by
  rcases hf : f w with refusal | next <;> simp only [change, StateT.run, hf] at h
  · cases h
  · cases h
    rfl

theorem eq_of_change_error {reason : String} (h : (change f).run w = (.error reason, w')) :
    w' = w := by
  rcases hf : f w with refusal | next <;> simp only [change, StateT.run, hf] at h
  · cases h
    rfl
  · cases h

end Change

/-- A workspace reads what is there, and a write to it is done or leaves it alone. -/
theorem lawful_host : host.Lawful view where
  outside_readFile h := by
    cases h
    rfl
  readFile_ok {path w w' content} h := by
    rcases hread : w.readFile path with refusal | bytes <;>
      simp only [host, StateT.run, hread, Except.mapError] at h
    · cases h
    · cases h
      exact contentAt?_of_readFile hread
  writeFile_ok h := exists_of_writeFile (eq_ok_of_change h)
  writeFile_error h := congrArg view.outside (eq_of_change_error h)
  print := ⟨fun h => outside_of_print (eq_ok_of_change h),
    fun h => congrArg view.outside (eq_of_change_error h)⟩
  warn := by
    refine ⟨fun h => ?_, nofun⟩
    cases h
    rfl
  outside_giveUp h := by
    cases h
    exact ⟨_, rfl⟩

end Workspace

end CharRuns
