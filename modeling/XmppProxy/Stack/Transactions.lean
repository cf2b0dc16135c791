import Mathlib.Algebra.Order.Group.Nat
import XmppProxy.Model.NginxProxyCtl

/-! What becomes of the web server's configuration over any run of `add` and `remove`. The test that `add`
makes is on the files without the new one, and nothing is taken back after a failed reload. -/

namespace XmppProxy.NginxProxyCtl

variable {host : Host} {dir : ConfDir} {cmd : Command} {cmds : List Command}
variable {location upstream options proxyTimeout l : Bytes}

def run (host : Host) (dir : ConfDir) : List Command → ConfDir
  | [] => dir
  | cmd :: cmds => run host (cmd.exec host dir).2 cmds

/-- Each command of a run, with the files that it finds. -/
def trace (host : Host) (dir : ConfDir) : List Command → List (ConfDir × Command)
  | [] => []
  | cmd :: cmds => (dir, cmd) :: trace host (cmd.exec host dir).2 cmds

/-- Nothing has changed unless the command exits with zero; then an `add` has left its file, and `nginx`
accepts it. -/
structure Safe (host : Host) (dir : ConfDir) (cmd : Command) : Prop where
  unchanged : (cmd.exec host dir).1.isZero = false → (cmd.exec host dir).2 = dir
  installed : ∀ location upstream options proxyTimeout,
    cmd = .add location upstream options proxyTimeout → (cmd.exec host dir).1.isZero →
      (cmd.exec host dir).2 = Function.update dir (configFile host location)
          (some (generateProxyConfig host location upstream options proxyTimeout)) ∧
        host.nginxTest (cmd.exec host dir).2

def installs (host : Host) (l : Bytes) (s : ConfDir × Command) : Bool :=
  match s.2 with
  | .add location _ _ _ => location = l ∧ s.1 (configFile host l) = none ∧
      (s.2.exec host s.1).2 (configFile host l) ≠ none
  | .remove _ => false

def deletes (host : Host) (l : Bytes) (s : ConfDir × Command) : Bool :=
  match s.2 with
  | .add _ _ _ _ => false
  | .remove location => location = l ∧ s.1 (configFile host l) ≠ none ∧
      (s.2.exec host s.1).2 (configFile host l) = none

def files (host : Host) (dir : ConfDir) (l : Bytes) : Nat := if dir (configFile host l) = none then 0 else 1

/-- The files for `l` that were there or have been added are those that have been deleted and the one that
may be there now. -/
def OneFile (host : Host) (dir : ConfDir) (cmds : List Command) (l : Bytes) : Prop :=
  files host dir l + (trace host dir cmds).countP (installs host l) =
    files host (run host dir cmds) l + (trace host dir cmds).countP (deletes host l)

/-- A command that is turned down before it changes anything, or one whose result `nginx` accepts. -/
def Accepted (host : Host) (dir : ConfDir) : Command → Prop
  | .add location upstream options proxyTimeout =>
    validateLocationPath location ≠ .ok () ∨ validateUpstreamUrl upstream ≠ .ok () ∨
      dir (configFile host location) ≠ none ∨
      host.nginxTest (Function.update dir (configFile host location)
        (some (generateProxyConfig host location upstream options proxyTimeout)))
  | .remove location =>
    dir (configFile host location) = none ∨
      host.nginxTest (Function.update dir (configFile host location) none)

theorem addProxy_cases (host : Host) (dir : ConfDir) (location upstream options proxyTimeout : Bytes) :
    (∃ e, addProxy host location upstream options proxyTimeout dir = (.error e, dir) ∧
      (validateLocationPath location ≠ .ok () ∨ validateUpstreamUrl upstream ≠ .ok () ∨
        dir (configFile host location) ≠ none ∨ host.nginxTest dir = false)) ∨
    (validateLocationPath location = .ok () ∧ validateUpstreamUrl upstream = .ok () ∧
      dir (configFile host location) = none ∧ host.nginxTest dir = true ∧
      ∃ exit, addProxy host location upstream options proxyTimeout dir =
          (exit, Function.update dir (configFile host location)
            (some (generateProxyConfig host location upstream options proxyTimeout))) ∧
        exit.isZero = host.nginxTest (Function.update dir (configFile host location)
            (some (generateProxyConfig host location upstream options proxyTimeout)))) := by
  unfold addProxy
  rcases hl : validateLocationPath location with e | ⟨⟩
  · exact .inl ⟨e, rfl, .inl (by simp)⟩
  rcases hu : validateUpstreamUrl upstream with e | ⟨⟩
  · exact .inl ⟨e, rfl, .inr (.inl (by simp))⟩
  dsimp only
  split_ifs with hdup htest hreload
  · exact .inl ⟨_, rfl, .inr (.inr (.inl (Option.isSome_iff_ne_none.mp hdup)))⟩
  · exact .inl ⟨_, rfl, .inr (.inr (.inr (by simpa using htest)))⟩
  · refine .inr ⟨rfl, rfl, by simpa using hdup, by simpa using htest, _, rfl, ?_⟩
    rw [hreload]
    rfl
  · refine .inr ⟨rfl, rfl, by simpa using hdup, by simpa using htest, _, rfl, ?_⟩
    rw [Bool.eq_false_iff.mpr hreload]
    rfl

theorem removeProxy_cases (host : Host) (dir : ConfDir) (location : Bytes) :
    (∃ e, removeProxy host location dir = (.error e, dir) ∧ dir (configFile host location) = none) ∨
    (dir (configFile host location) ≠ none ∧
      ∃ exit, removeProxy host location dir = (exit, Function.update dir (configFile host location) none) ∧
        exit.isZero = host.nginxTest (Function.update dir (configFile host location) none)) := by
  unfold removeProxy
  dsimp only
  split_ifs with hfound hreload
  · exact .inl ⟨_, rfl, Option.isNone_iff_eq_none.mp hfound⟩
  · refine .inr ⟨by simpa using hfound, _, rfl, ?_⟩
    rw [hreload]
    rfl
  · refine .inr ⟨by simpa using hfound, _, rfl, ?_⟩
    rw [Bool.eq_false_iff.mpr hreload]
    rfl

theorem Safe.reloaded {f : Bytes} {content : Option Bytes} {exit : Exit} (hs : Safe host dir cmd)
    (heq : cmd.exec host dir = (exit, Function.update dir f content)) (hne : dir f ≠ content)
    (hexit : exit.isZero = host.nginxTest (Function.update dir f content)) :
    host.nginxTest (Function.update dir f content) := by
  cases hzero : exit.isZero with
  | true => exact hexit.symm.trans hzero
  | false =>
    have hsame := hs.unchanged (by rw [heq]; exact hzero)
    rw [heq] at hsame
    have hf := congrFun hsame f
    dsimp only at hf
    rw [Function.update_self] at hf
    exact absurd hf.symm hne

theorem safe_iff (hdir : host.nginxTest dir) : Safe host dir cmd ↔ Accepted host dir cmd := by
  cases cmd with
  | add location upstream options proxyTimeout =>
    rcases addProxy_cases host dir location upstream options proxyTimeout with
      ⟨e, heq, hrejected⟩ | ⟨hl, hu, hdup, -, exit, heq, hexit⟩
    · refine iff_of_true ⟨fun _ => ?_, ?_⟩ ?_
      · rw [Command.exec, heq]
      · rintro _ _ _ _ ⟨⟩ hzero
        rw [Command.exec, heq] at hzero
        cases hzero
      · rcases hrejected with h | h | h | h
        · exact .inl h
        · exact .inr (.inl h)
        · exact .inr (.inr (.inl h))
        · cases hdir.symm.trans h
    · constructor
      · intro hs
        refine .inr (.inr (.inr (hs.reloaded heq ?_ hexit)))
        rw [hdup]
        exact Option.some_ne_none _ ∘ Eq.symm
      · rintro (h | h | h | h)
        · exact absurd hl h
        · exact absurd hu h
        · exact absurd hdup h
        · refine ⟨fun hnonzero => ?_, ?_⟩
          · rw [Command.exec, heq] at hnonzero
            cases (hexit.trans h).symm.trans hnonzero
          · rintro _ _ _ _ ⟨⟩ -
            rw [Command.exec, heq]
            exact ⟨rfl, h⟩
  | remove location =>
    rcases removeProxy_cases host dir location with ⟨e, heq, hnone⟩ | ⟨hfound, exit, heq, hexit⟩
    · refine iff_of_true ⟨fun _ => ?_, fun _ _ _ _ h => by cases h⟩ (.inl hnone)
      rw [Command.exec, heq]
    · constructor
      · intro hs
        exact .inr (hs.reloaded heq hfound hexit)
      · rintro (h | h)
        · exact absurd h hfound
        · refine ⟨fun hnonzero => ?_, fun _ _ _ _ h => by cases h⟩
          rw [Command.exec, heq] at hnonzero
          cases (hexit.trans h).symm.trans hnonzero

theorem Safe.passes (hs : Safe host dir cmd) (hdir : host.nginxTest dir) :
    host.nginxTest (cmd.exec host dir).2 := by
  cases hzero : (cmd.exec host dir).1.isZero with
  | false =>
    rw [hs.unchanged hzero]
    exact hdir
  | true =>
    cases cmd with
    | add location upstream options proxyTimeout => exact (hs.installed _ _ _ _ rfl hzero).2
    | remove location =>
      rcases removeProxy_cases host dir location with ⟨e, heq, -⟩ | ⟨-, exit, heq, hexit⟩
      · rw [Command.exec, heq] at hzero
        cases hzero
      · rw [Command.exec, heq] at hzero ⊢
        exact hexit.symm.trans hzero

theorem trace_safe_iff (hdir : host.nginxTest dir) (cmds : List Command) :
    (∀ s ∈ trace host dir cmds, Safe host s.1 s.2) ↔ ∀ s ∈ trace host dir cmds, Accepted host s.1 s.2 := by
  induction cmds generalizing dir with
  | nil => exact iff_of_true (fun _ h => by cases h) fun _ h => by cases h
  | cons cmd cmds ih =>
    rw [trace, List.forall_mem_cons, List.forall_mem_cons, safe_iff hdir]
    refine and_congr_right fun hacc => ih ?_
    exact ((safe_iff hdir).mpr hacc).passes hdir

theorem echoN_cases (arg : Bytes) : echoN arg = arg ∨ echoN arg = [] := by
  unfold echoN
  split
  · split_ifs
    · exact .inr rfl
    · exact .inl rfl
  · exact .inl rfl

theorem echoN_of_valid (h : validateLocationPath l = .ok ()) : echoN l = l ∧ l ≠ [] := by
  unfold validateLocationPath at h
  split_ifs at h with hnil hslash
  obtain ⟨rest, rfl⟩ := hslash
  exact ⟨rfl, hnil⟩

theorem configFile_inj (hmd5 : Function.Injective host.md5sum) (hl : validateLocationPath l = .ok ())
    (heq : configFile host location = configFile host l) : location = l := by
  unfold configFile at heq
  have hecho := hmd5 (List.append_cancel_left (List.append_cancel_right heq))
  obtain ⟨hsame, hne⟩ := echoN_of_valid hl
  rw [hsame] at hecho
  rcases echoN_cases location with h | h
  · exact h.symm.trans hecho
  · exact absurd (hecho.symm.trans h) hne

theorem files_update (hmd5 : Function.Injective host.md5sum) (hl : validateLocationPath l = .ok ())
    (hne : location ≠ l) (content : Option Bytes) :
    Function.update dir (configFile host location) content (configFile host l) = dir (configFile host l) :=
  Function.update_of_ne (fun h => hne (configFile_inj hmd5 hl h.symm)) _ _

theorem exec_files (hmd5 : Function.Injective host.md5sum) (hl : validateLocationPath l = .ok ())
    (dir : ConfDir) (cmd : Command) :
    files host dir l + (if installs host l (dir, cmd) then 1 else 0) =
      files host (cmd.exec host dir).2 l + (if deletes host l (dir, cmd) then 1 else 0) := by
  cases cmd with
  | add location upstream options proxyTimeout =>
    unfold installs deletes files Command.exec
    rcases addProxy_cases host dir location upstream options proxyTimeout with
      ⟨e, heq, -⟩ | ⟨-, -, hdup, -, exit, heq, -⟩
    · by_cases h : dir (configFile host l) = none <;> simp [heq, h]
    · by_cases hloc : location = l
      · subst hloc
        simp [heq, hdup]
      · simp [heq, hloc, files_update hmd5 hl hloc]
  | remove location =>
    unfold installs deletes files Command.exec
    rcases removeProxy_cases host dir location with ⟨e, heq, -⟩ | ⟨hfound, exit, heq, -⟩
    · by_cases h : dir (configFile host l) = none <;> simp [heq, h]
    · by_cases hloc : location = l
      · subst hloc
        simp [heq, hfound]
      · simp [heq, hloc, files_update hmd5 hl hloc]

theorem oneFile (hmd5 : Function.Injective host.md5sum) (hl : validateLocationPath l = .ok ())
    (dir : ConfDir) (cmds : List Command) : OneFile host dir cmds l := by
  unfold OneFile
  induction cmds generalizing dir with
  | nil => rfl
  | cons cmd cmds ih =>
    have hstep := exec_files hmd5 hl dir cmd
    have hrest := ih (cmd.exec host dir).2
    rw [trace, run, List.countP_cons, List.countP_cons]
    omega

/-- The commands of a run are safe exactly where each is turned down before it changes anything, or `nginx`
accepts what it makes of the files; and over any run, at every point of it, a location has one file at most. -/
theorem transactions_safe_iff (host : Host) (hmd5 : Function.Injective host.md5sum) (dir : ConfDir)
    (hdir : host.nginxTest dir) (cmds : List Command) :
    ((∀ s ∈ trace host dir cmds, Safe host s.1 s.2) ∧
      ∀ done, done <+: cmds → ∀ l, validateLocationPath l = .ok () → OneFile host dir done l) ↔
    ∀ s ∈ trace host dir cmds, Accepted host s.1 s.2 := by
  rw [← trace_safe_iff hdir cmds]
  exact ⟨And.left, fun hs => ⟨hs, fun done _ l hl => oneFile hmd5 hl dir done⟩⟩

/-- A web server that turns down a location of two words. -/
def strict : Host where
  md5sum := id
  envsubst vars _ := (vars.map Prod.snd).flatten
  template := []
  nginxTest dir := (dir (bytes "proxy-/a b.conf")).isNone

def addTwoWords : Command := .add (bytes "/a b") (bytes "http://localhost:8000/") [] []

theorem transactions_safe_add :
    ((∀ s ∈ trace strict (fun _ => none) [addTwoWords], Safe strict s.1 s.2) ∧
      ∀ done, done <+: [addTwoWords] → ∀ l, validateLocationPath l = .ok () →
        OneFile strict (fun _ => none) done l) ↔
    ∀ s ∈ trace strict (fun _ => none) [addTwoWords], Accepted strict s.1 s.2 :=
  transactions_safe_iff strict Function.injective_id (fun _ => none) rfl [addTwoWords]

/-- Its file stays where it is after the failed reload. -/
theorem transactions_file_left :
    ¬ ∀ host dir cmds, Function.Injective host.md5sum → host.nginxTest dir →
      ∀ s ∈ trace host dir cmds, Safe host s.1 s.2 := by
  intro h
  have hs := h strict (fun _ => none) [addTwoWords] Function.injective_id rfl _ (List.mem_cons_self ..)
  have hsame := congrFun (hs.unchanged (by decide)) (bytes "proxy-/a b.conf")
  revert hsame
  decide

end XmppProxy.NginxProxyCtl
