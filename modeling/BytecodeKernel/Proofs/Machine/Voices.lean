import BytecodeKernel.Kernel.Console
import BytecodeKernel.Proofs.Machine.Transcripts
/-!
What is heard of a process. Of its requests the console takes the texts, in their order, but for
those at which it panics. If it panics at the texts of this process by the texts alone, then what
the process printed can be read off its transcript.
-/

namespace BytecodeKernel

variable {σ α : Type}

/-- How a console answers that panics at these texts. Other requests are granted. -/
def verdict (breaks : String → Bool) : HostCall → Except Fault Nat
  | .print _ text => if breaks text then .error (.host "interpreter panicked") else .ok 0
  | .spawn .. | .bind .. | .dispatch _ => .ok 0

/-- The text that such a console takes from a request. -/
def HostCall.text? (breaks : String → Bool) : HostCall → Option String
  | .print _ text => if breaks text then none else some text
  | .spawn .. | .bind .. | .dispatch _ => none

/-- Nothing is printed but in the name of this process. -/
def HostCall.IsOf (origin : Nat) : HostCall → Prop
  | .print other _ => other = origin
  | .spawn .. | .bind .. | .dispatch _ => True

/-- The texts that such a console takes from requests. -/
def heard (breaks : String → Bool) (calls : List HostCall) : List String :=
  calls.filterMap (·.text? breaks)

namespace Console

variable {origin j : Nat} {breaks : String → Bool} {call : HostCall}

/-- The console after a request. -/
def after (c : Console) : HostCall → Console
  | .print origin text => c.print origin text
  | .spawn .. | .bind .. | .dispatch _ => c

/-- How the console answers a request. -/
def answer (c : Console) : HostCall → Except Fault Nat
  | .print origin text => verdict (c.panicsAt origin) (.print origin text)
  | .spawn .. | .bind .. | .dispatch _ => .ok 0

theorem sink_after (c : Console) (call : HostCall) : (c.after call).sink = c.sink := by
  cases call <;> rfl

theorem answer_eq_verdict {c : Console} (hc : c.sink.BreaksAt origin breaks)
    (hcall : call.IsOf origin) : c.answer call = verdict breaks call := by
  cases call with
  | print other text =>
    obtain rfl : other = origin := hcall
    exact congrArg (fun panics => verdict panics (.print other text)) (funext (hc c.asked))
  | _ => rfl

theorem linesFrom_after_of_ne (c : Console) (hcall : call.IsOf origin) (hj : j ≠ origin) :
    (c.after call).linesFrom j = c.linesFrom j := by
  cases call with
  | print other text =>
    obtain rfl : other = origin := hcall
    rw [after, print]
    split <;> simp [linesFrom, Ne.symm hj]
  | _ => rfl

theorem linesFrom_after {c : Console} (hc : c.sink.BreaksAt origin breaks)
    (hcall : call.IsOf origin) :
    (c.after call).linesFrom origin = c.linesFrom origin ++ heard breaks [call] := by
  cases call with
  | print other text =>
    obtain rfl : other = origin := hcall
    have hpanics : c.panicsAt other text = breaks text := hc c.asked text
    cases hbreaks : breaks text <;>
      simp [after, print, hpanics, heard, HostCall.text?, hbreaks, linesFrom]
  | _ => exact (List.append_nil _).symm

end Console

/-- A service that does with the console what its request says, and answers such requests as the
console does. -/
structure Host.Tells (console : σ → Console) (Sure : HostCall → Prop) (call : HostCall)
    (reply : α → Nat) (x : HostM σ α) : Prop where
  takes : ∀ s a, console (reached (x (s, a))).1 = (console s).after call
  answer : Sure call → ∀ s a, Host.answer reply (x (s, a)) = (console s).answer call

structure Runner.Voiced (r : Runner σ) (console : σ → Console) (Sure : HostCall → Prop) : Prop where
  spawn : ∀ priority name, Host.Tells console Sure (.spawn r.origin priority name) id
    (r.host.spawn r.origin priority name)
  bind : ∀ target entry, Host.Tells console Sure (.bind target entry) (fun _ => 0)
    (r.host.bind target (r.image.enteredAt entry))
  dispatch : ∀ target, Host.Tells console Sure (.dispatch target) (fun _ => 0)
    (r.host.dispatch target)
  print : ∀ text, Host.Tells console Sure (.print r.origin text) (fun _ => 0)
    (r.host.print r.origin text)

/-- From one console to a later one, with the requests of one process between them. -/
structure Echoes (Sure : HostCall → Prop) (origin : Nat) (c d : Console) (log : List Exchange) :
    Prop where
  sink : d.sink = c.sink
  others : ∀ j, j ≠ origin → d.linesFrom j = c.linesFrom j
  lines : ∀ breaks, c.sink.BreaksAt origin breaks →
    d.linesFrom origin = c.linesFrom origin ++ heard breaks (log.map (·.call))
  verdicts : ∀ breaks, c.sink.BreaksAt origin breaks →
    ∀ x ∈ log, Sure x.call → x.reply = verdict breaks x.call

variable {Sure : HostCall → Prop} {console : σ → Console} {origin : Nat} {c d : Console}
  {log : List Exchange}

theorem Echoes.refl (Sure : HostCall → Prop) (origin : Nat) (c : Console) :
    Echoes Sure origin c c [] :=
  ⟨rfl, fun _ _ => rfl, fun _ _ => (List.append_nil _).symm,
    fun _ _ _ hx => absurd hx List.not_mem_nil⟩

/-- One more request. -/
theorem Echoes.snoc (h : Echoes Sure origin c d log) {call : HostCall}
    (hcall : call.IsOf origin) {reply : Except Fault Nat}
    (hreply : Sure call → reply = d.answer call) :
    Echoes Sure origin c (d.after call) (log ++ [⟨call, reply⟩]) where
  sink := (d.sink_after call).trans h.sink
  others j hj := (d.linesFrom_after_of_ne hcall hj).trans (h.others j hj)
  lines breaks hc := by
    rw [Console.linesFrom_after (h.sink ▸ hc) hcall, h.lines breaks hc, List.append_assoc,
      List.map_append, heard, heard, heard, List.filterMap_append]
    rfl
  verdicts breaks hc x hx hsure := by
    rcases List.mem_append.1 hx with hx | hx
    · exact h.verdicts breaks hc x hx hsure
    · obtain rfl := List.mem_singleton.1 hx
      exact (hreply hsure).trans (Console.answer_eq_verdict (h.sink ▸ hc) hcall)

theorem Host.Tells.enters {call : HostCall} {reply : α → Nat} {x : HostM σ α}
    (h : Host.Tells console Sure call reply x) (hcall : call.IsOf origin) :
    Host.Enters (fun _ => True) (fun g => Echoes Sure origin c (console g.1) g.2) call reply x := by
  intro m _ log hlog
  have hend := hlog.snoc hcall fun hsure => h.answer hsure m.host m.arena
  rwa [← h.takes m.host m.arena] at hend

/-- A run is heard as its transcript says. -/
theorem Runner.Voiced.echoes {r : Runner σ} (h : r.Voiced console Sure) (budget : Nat)
    (m : Machine σ) :
    Echoes Sure r.origin (console m.host) (console (reached (r.run budget m)).host)
      (r.transcript budget m) := by
  have hkeeps : r.logged.Keeps fun n => True ∧
      Echoes Sure r.origin (console m.host) (console n.host.1) n.host.2 :=
    r.keeps_true.logged
      (C := fun g => Echoes Sure r.origin (console m.host) (console g.1) g.2)
      (fun priority name => (h.spawn priority name).enters trivial)
      (fun target entry => (h.bind target entry).enters trivial)
      (fun target => (h.dispatch target).enters trivial)
      (fun text => (h.print text).enters rfl)
  have hend := ((hkeeps.run budget).reached (s := m.recording)
    ⟨trivial, .refl Sure r.origin (console m.host)⟩).2
  have hforget := congrArg Machine.host (r.forget_reached budget m)
  rwa [show (reached (r.logged.run budget m.recording)).host.1 =
    (reached (r.run budget m)).host from hforget] at hend

end BytecodeKernel
