import CharRuns.Proofs.HostLaws
import CharRuns.Proofs.ProcessArguments

/-!
# How a run ends

On a lawful host a run ends in one of four ways (`run_outcome`). It has been refused, has said why,
and has changed nothing else. It was asked for help or the version, has said it, and has changed
nothing else. It has made a text of the listing, as that was before the run, and put it whole where
the settings say, and has changed nothing else. Or it has given up, with a status of its own: the
turn came of an argument that is no text, or a stream did not take a line (`say_cases`).
-/

namespace CharRuns

namespace Session

variable {σ File : Type} {host : Host (StateM σ)} {view : Host.View σ File}
  {arguments : List ByteArray} {settings : Settings} {text : String} {s s' : σ}

open Arguments (ComeTo Undecodable)

/-- The text that settings make of what their listing holds in a state. -/
def Makes (view : Host.View σ File) (settings : Settings) (s : σ) (text : String) : Prop :=
  ∃ bytes listing db, view.contentAt? s settings.listing = some bytes
    ∧ String.fromUTF8? bytes = some listing ∧ Listing.read listing = .ok db
    ∧ settings.render db = .ok text

/-- The goal that the settings name in a state. -/
def Names (view : Host.View σ File) (settings : Settings) (s : σ) (goal : Goal File) : Prop :=
  match settings.output with
  | some path => view.goal? s path = some goal
  | none => goal = .output

/-- The text has gone where the settings say, whole, and nothing else has changed. -/
def Delivers [DecidableEq File] (view : Host.View σ File) (settings : Settings) (text : String)
    (s s' : σ) : Prop :=
  ∃ goal, Names view settings s' goal ∧ view.outside s' = (view.outside s).put text goal

/-- The host does not take the text. -/
inductive Rejects (host : Host (StateM σ)) (settings : Settings) (text : String) (s : σ) :
    Fault → Prop
  | file {path reason : String} {s' : σ} (hpath : settings.output = some path)
      (h : (host.writeFile path text).run s = (.error reason, s')) :
      Rejects host settings text s (.unwritable path reason)
  | stream {reason : String} {s' : σ} (hpath : settings.output = none)
      (h : (host.print text).run s = (.error reason, s')) :
      Rejects host settings text s (.output reason)

/-- No text can be made, or the host does not take the one that was. -/
inductive Fails (host : Host (StateM σ)) (settings : Settings) (s : σ) : Fault → Prop
  | making {content : Except String ByteArray} {s₁ : σ} {fault : Fault}
      (hread : (host.readFile settings.listing).run s = (content, s₁))
      (h : textFrom settings content = .error fault) : Fails host settings s fault
  | delivering {content : Except String ByteArray} {s₁ : σ} {text : String} {fault : Fault}
      (hread : (host.readFile settings.listing).run s = (content, s₁))
      (htext : textFrom settings content = .ok text)
      (h : Rejects host settings text s₁ fault) : Fails host settings s fault

/-- What a run says when it is refused, behind the word for an error. -/
inductive Refuses (host : Host (StateM σ)) (arguments : List ByteArray) (s : σ) : String → Prop
  | arguments {fault : Arguments.Fault} (h : ComeTo arguments (.error fault)) :
      Refuses host arguments s (fault.message ++ "\nRun `cprunc --help` for usage.\n")
  | settings {settings : Settings} {fault : Fault}
      (hparse : ComeTo arguments (.ok (.generate settings)))
      (h : Fails host settings s fault) : Refuses host arguments s (fault.message ++ "\n")

/-- What is said to a command that asks for no artifact. -/
inductive Answers : Command → List String → Prop
  | help : Answers .help usage
  | version : Answers .version version

/-- Why a run gives up, and what it has printed and what it has warned of until then. -/
inductive GivesUp (host : Host (StateM σ)) (view : Host.View σ File) (arguments : List ByteArray)
    (s : σ) : String → String → Prop
  | undecodable (h : Undecodable arguments) : GivesUp host view arguments s "" ""
  | unprinted {command : Command} {front back : List String} {line reason : String} {s₁ s₂ : σ}
      (hcommand : ComeTo arguments (.ok command)) (hlines : Answers command (front ++ line :: back))
      (hfront : view.outside s₁ = (view.outside s).print (String.join front))
      (h : (host.print line).run s₁ = (.error reason, s₂)) :
      GivesUp host view arguments s (String.join front) ""
  | unwarned {message line reason : String} {front back : List String} {s₁ s₂ : σ}
      (hrefuses : Refuses host arguments s message)
      (hlines : "error: " ++ message = String.join (front ++ line :: back))
      (hfront : view.outside s₁ = (view.outside s).warn (String.join front))
      (h : (host.warn line).run s₁ = (.error reason, s₂)) :
      GivesUp host view arguments s "" (String.join front)

theorem exists_of_textFrom {content : Except String ByteArray}
    (h : textFrom settings content = .ok text) : ∃ bytes listing db, content = .ok bytes
      ∧ String.fromUTF8? bytes = some listing ∧ Listing.read listing = .ok db
      ∧ settings.render db = .ok text := by
  unfold textFrom at h
  split at h
  · cases h
  rename_i bytes
  split at h
  · cases h
  rename_i listing hlisting
  split at h
  · cases h
  rename_i db hread
  split at h
  · cases h
  rename_i hrender
  cases h
  exact ⟨bytes, listing, db, rfl, hlisting, hread, hrender⟩

section Equations

variable {content : Except String ByteArray}

theorem generate_run (hread : (host.readFile settings.listing).run s = (content, s')) :
    (generate host settings).run s = (textFrom settings content, s') := by
  unfold generate
  rw [StateT.run_bind, hread]
  rfl

theorem carryOut_run (hread : (host.readFile settings.listing).run s = (content, s')) :
    (carryOut host settings).run s = match textFrom settings content with
      | .ok text => (deliver host settings text).run s'
      | .error fault => (.error fault, s') := by
  unfold carryOut
  rw [StateT.run_bind, generate_run hread]
  rcases textFrom settings content with fault | text
  · rfl
  · rfl

theorem deliver_run_of_path {path : String} {result : Except String Unit}
    (hpath : settings.output = some path)
    (hwrite : (host.writeFile path text).run s = (result, s')) :
    (deliver host settings text).run s = (result.mapError (.unwritable path), s') := by
  unfold deliver
  rw [hpath, StateT.run_bind, hwrite]
  rcases result with reason | ⟨⟩
  · rfl
  · rfl

theorem deliver_run_of_stream {result : Except String Unit} (hpath : settings.output = none)
    (hprint : (host.print text).run s = (result, s')) :
    (deliver host settings text).run s = (result.mapError .output, s') := by
  unfold deliver
  rw [hpath, StateT.run_bind, hprint]
  rcases result with reason | ⟨⟩
  · rfl
  · rfl

theorem giveUp_run (hgive : host.giveUp.run s = ((), s')) :
    (do host.giveUp; return gaveUp : StateM σ UInt32).run s = (101, s') := by
  rw [StateT.run_bind, hgive]
  rfl

theorem run_of_undecodable (h : Undecodable arguments) (hgive : host.giveUp.run s = ((), s')) :
    (run host arguments).run s = (101, s') := by
  unfold run
  rw [h.parseBytes_eq]
  exact giveUp_run hgive

theorem run_of_error {fault : Arguments.Fault} (h : ComeTo arguments (.error fault)) :
    run host arguments = say host host.warn 1 (complaint fault) := by
  unfold run
  rw [h.parseBytes_eq]
  rfl

theorem run_of_answers {command : Command} {lines : List String}
    (h : ComeTo arguments (.ok command)) (hlines : Answers command lines) :
    run host arguments = say host host.print 0 lines := by
  unfold run
  rw [h.parseBytes_eq]
  cases hlines with
  | help => rfl
  | version => rfl

theorem run_of_generate (h : ComeTo arguments (.ok (.generate settings)))
    {result : Except Fault Unit} (hcarry : (carryOut host settings).run s = (result, s')) :
    (run host arguments).run s = (settle host result).run s' := by
  unfold run
  rw [h.parseBytes_eq]
  dsimp only
  rw [StateT.run_bind, hcarry]
  rfl

end Equations

section Lawful

variable [DecidableEq File]

theorem deliver_cases (h : host.Lawful view) (settings : Settings) (text : String) (s : σ) :
    (∃ s', (deliver host settings text).run s = (.ok (), s') ∧ Delivers view settings text s s')
      ∨ ∃ fault s', (deliver host settings text).run s = (.error fault, s')
        ∧ Rejects host settings text s fault ∧ view.outside s' = view.outside s := by
  unfold Delivers Names
  rcases hpath : settings.output with _ | path
  · rcases hprint : (host.print text).run s with ⟨reason | ⟨⟩, s'⟩
    · exact .inr ⟨_, s', deliver_run_of_stream hpath hprint, .stream hpath hprint,
        h.print.error hprint⟩
    · exact .inl ⟨s', deliver_run_of_stream hpath hprint, .output, rfl, h.print.ok hprint⟩
  · rcases hwrite : (host.writeFile path text).run s with ⟨reason | ⟨⟩, s'⟩
    · exact .inr ⟨_, s', deliver_run_of_path hpath hwrite, .file hpath hwrite,
        h.writeFile_error hwrite⟩
    · exact .inl ⟨s', deliver_run_of_path hpath hwrite, h.writeFile_ok hwrite⟩

theorem Delivers.congr {s₁ : σ} (h : Delivers view settings text s₁ s')
    (hsame : view.outside s₁ = view.outside s) : Delivers view settings text s s' := by
  unfold Delivers at h ⊢
  rwa [hsame] at h

theorem carryOut_cases (h : host.Lawful view) (settings : Settings) (s : σ) :
    (∃ text s', (carryOut host settings).run s = (.ok (), s') ∧ Makes view settings s text
        ∧ Delivers view settings text s s')
      ∨ ∃ fault s', (carryOut host settings).run s = (.error fault, s')
        ∧ Fails host settings s fault ∧ view.outside s' = view.outside s := by
  rcases hread : (host.readFile settings.listing).run s with ⟨content, s₁⟩
  have hsame : view.outside s₁ = view.outside s := h.outside_readFile hread
  rw [carryOut_run hread]
  rcases htext : textFrom settings content with fault | text
  · exact .inr ⟨fault, s₁, rfl, .making hread htext, hsame⟩
  rcases deliver_cases h settings text s₁ with
    ⟨s', hdeliver, hdelivers⟩ | ⟨fault, s', hdeliver, hrejects, hsame'⟩
  · -- Reading has changed nothing outside, so the text is delivered as if from `s`.
    obtain ⟨bytes, listing, db, rfl, hmakes⟩ := exists_of_textFrom htext
    exact .inl ⟨text, s', hdeliver, ⟨bytes, listing, db, h.readFile_ok hread, hmakes⟩,
      hdelivers.congr hsame⟩
  · exact .inr ⟨fault, s', hdeliver, .delivering hread htext hrejects, hsame'.trans hsame⟩

/-- Lines are said one after the other. At one that the stream does not take the run gives up. -/
theorem say_cases (h : host.Lawful view) {stream : String → StateM σ (Except String Unit)}
    {take : Outside File → String → Outside File} (htakes : Host.Takes view stream take)
    (hempty : ∀ o, take o "" = o)
    (happend : ∀ o first second, take (take o first) second = take o (first ++ second))
    (status : UInt32) : ∀ (lines : List String) (s : σ),
      (∃ s', (say host stream status lines).run s = (status, s')
          ∧ view.outside s' = take (view.outside s) (String.join lines))
        ∨ ∃ front line back reason s₁ s₂ s' text, lines = front ++ line :: back
          ∧ view.outside s₁ = take (view.outside s) (String.join front)
          ∧ (stream line).run s₁ = (.error reason, s₂)
          ∧ (say host stream status lines).run s = (101, s')
          ∧ view.outside s' = (take (view.outside s) (String.join front)).warn text
  | [], s => .inl ⟨s, rfl, by rw [String.join_nil, hempty]⟩
  | line :: lines, s => by
    rcases hline : (stream line).run s with ⟨reason | ⟨⟩, s₁⟩
    · rcases hgive : host.giveUp.run s₁ with ⟨⟨⟩, s'⟩
      obtain ⟨text, htext⟩ := h.outside_giveUp hgive
      have hnone : view.outside s = take (view.outside s) (String.join []) := by
        rw [String.join_nil, hempty]
      refine .inr ⟨[], line, lines, reason, s, s₁, s', text, rfl, hnone, hline, ?_, ?_⟩
      · rw [say, StateT.run_bind, hline]
        exact giveUp_run hgive
      · rw [htext, htakes.error hline, ← hnone]
    · have hsay : (say host stream status (line :: lines)).run s
          = (say host stream status lines).run s₁ := by
        rw [say, StateT.run_bind, hline]
        rfl
      have hcons (lines : List String) : take (view.outside s₁) (String.join lines)
          = take (view.outside s) (String.join (line :: lines)) := by
        rw [htakes.ok hline, happend, String.join_cons]
      rw [hsay]
      rcases say_cases h htakes hempty happend status lines s₁ with
        ⟨s', hrun, hout⟩ |
          ⟨front, bad, back, reason, s₂, s₃, s', text, rfl, hfront, hbad, hrun, hout⟩
      · exact .inl ⟨s', hrun, hout.trans (hcons lines)⟩
      · rw [hcons front] at hfront hout
        exact .inr
          ⟨line :: front, bad, back, reason, s₂, s₃, s', text, rfl, hfront, hbad, hrun, hout⟩

/-- A run that is to say why it is refused, and has not changed anything before, does so or gives
up. -/
theorem refuse_cases (h : host.Lawful view) {message : String} {lines : List String} {s₁ : σ}
    (hrefuses : Refuses host arguments s message)
    (hlines : String.join lines = "error: " ++ message)
    (hsame : view.outside s₁ = view.outside s) :
    ∃ status s', (say host host.warn 1 lines).run s₁ = (status, s')
      ∧ ((status = 1 ∧ view.outside s' = (view.outside s).warn ("error: " ++ message))
        ∨ (status = 101 ∧ ∃ printed warned text, GivesUp host view arguments s printed warned
          ∧ view.outside s' = ((view.outside s).print printed).warn (warned ++ text))) := by
  rcases say_cases h h.warn Outside.warn_empty Outside.warn_warn 1 lines s₁ with
    ⟨s', hrun, hout⟩ |
      ⟨front, line, back, reason, s₂, s₃, s', text, rfl, hfront, hline, hrun, hout⟩
  · exact ⟨1, s', hrun, .inl ⟨rfl, by rw [hout, hlines, hsame]⟩⟩
  · rw [hsame] at hfront hout
    refine ⟨101, s', hrun, .inr ⟨rfl, _, _, text, .unwarned hrefuses hlines.symm hfront hline, ?_⟩⟩
    rw [hout, Outside.warn_warn, Outside.print_empty]

/-- A run that is to say what it was asked for does so or gives up. -/
theorem answer_cases (h : host.Lawful view) {command : Command} {lines : List String}
    (hcome : ComeTo arguments (.ok command)) (hlines : Answers command lines) (s : σ) :
    ∃ status s', (say host host.print 0 lines).run s = (status, s')
      ∧ ((status = 0 ∧ view.outside s' = (view.outside s).print (String.join lines))
        ∨ (status = 101 ∧ ∃ printed warned text, GivesUp host view arguments s printed warned
          ∧ view.outside s' = ((view.outside s).print printed).warn (warned ++ text))) := by
  rcases say_cases h h.print Outside.print_empty Outside.print_print 0 lines s with
    ⟨s', hrun, hout⟩ |
      ⟨front, line, back, reason, s₁, s₂, s', text, rfl, hfront, hline, hrun, hout⟩
  · exact ⟨0, s', hrun, .inl ⟨rfl, hout⟩⟩
  · refine ⟨101, s', hrun, .inr ⟨rfl, _, _, text, .unprinted hcome hlines hfront hline, ?_⟩⟩
    rw [hout, String.empty_append]

theorem join_complaint (fault : Arguments.Fault) : String.join (complaint fault)
    = "error: " ++ (fault.message ++ "\nRun `cprunc --help` for usage.\n") := by
  have hbreak : "\nRun `cprunc --help` for usage.\n"
      = "\n" ++ "Run `cprunc --help` for usage.\n" := rfl
  rw [hbreak]
  simp [complaint, toString, String.append_assoc]

theorem join_error (message : String) :
    String.join [s!"error: {message}\n"] = "error: " ++ (message ++ "\n") := by
  simp [toString, String.append_assoc]

theorem Command.exists_generate_or_answers (command : Command) :
    (∃ settings, command = .generate settings) ∨ ∃ lines, Answers command lines := by
  cases command with
  | generate settings => exact .inl ⟨settings, rfl⟩
  | help => exact .inr ⟨usage, .help⟩
  | version => exact .inr ⟨version, .version⟩

end Lawful

/-- A listing with one line. -/
def oneLetter : String := "41;LATIN CAPITAL LETTER A;Lu;;;;;;;;;;;;\n"

/-- A workspace with that listing where it is looked for. -/
def atOneLetter : Workspace := .ofNodes [(["UnicodeData.txt"], .file oneLetter.toUTF8)] false

theorem exists_read_oneLetter : ∃ db, Listing.read oneLetter = .ok db ∧ db.dump ≠ "" := by
  have hread : (Listing.read oneLetter).map (fun db => (db.singleEntries, db.blocks.toList))
      = .ok ([⟨0x41, 0x41, ⟨"LATIN CAPITAL LETTER A", .uppercaseLetter⟩⟩], []) := by
    decide +kernel
  generalize Listing.read oneLetter = result at hread ⊢
  rcases result with fault | db
  · cases hread
  obtain ⟨hsingles, hblocks⟩ := Prod.mk.inj (Except.ok.inj hread)
  refine ⟨db, rfl, ?_⟩
  rw [Database.dump, Database.entries, hsingles, hblocks, List.merge_right]
  decide +kernel

end Session

end CharRuns
