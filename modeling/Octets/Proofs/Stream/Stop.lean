import Octets.Proofs.Stream.Trace

/-!
# Where reading stops

Some streams do not say where they end, so a session that is not done when the
bytes run out may be all right too. Reading *stops* in a session if no fault comes
before: at the end of the bytes, or where the grammar is done, and then the bytes
behind it are left alone.

As for complete sessions, a stop is taken apart byte by byte (`stops_cons_iff`), and
at once over the bytes that a phase passes over (`stops_scan_iff`). Here the bytes
may run out inside such a phase.

## Main definitions

* `Grammar.Stops` — the session in which reading stops

## Main results

* `stops_cons_iff`, `Reads.stops_append_iff`, `stops_scan_iff` — a stop taken apart
* `settle_feedAll_eq_ok_iff` — chunks are taken without failure iff reading the
  joined stream stops
-/

namespace Octets.Stream.Grammar

variable {σ ε : Type} {g : Grammar σ ε} {s last : Session σ} {bytes : Bytes} {b : UInt8}

/-- Reading some bytes stops in a session, without a fault before. -/
def Stops (g : Grammar σ ε) (s : Session σ) (bytes : Bytes) (last : Session σ) : Prop :=
  (g.readAll s bytes).fault = none ∧ last = (g.readAll s bytes).session

theorem stops_nil_iff : g.Stops s [] last ↔ last = s := by
  simp [Stops, readAll]

/-- A done session leaves all bytes alone. -/
theorem stops_of_done_iff (done : g.isDone s.memory = true) : g.Stops s bytes last ↔ last = s := by
  simp [Stops, readAll_of_done done]

theorem stops_cons_iff (pending : g.isDone s.memory = false) :
    g.Stops s (b :: bytes) last ↔ ∃ next, g.read s b = .ok next ∧ g.Stops next bytes last := by
  unfold Stops
  rw [readAll, if_neg (by simp [pending])]
  cases g.read s b with
  | error refusal => simp
  | ok next => simp

theorem not_stops_of_refuse (pending : g.isDone s.memory = false)
    (refuses : ∃ fault, g.move s.memory b = .refuse fault) : ¬ g.Stops s (b :: bytes) last := by
  obtain ⟨fault, refused⟩ := refuses
  rw [stops_cons_iff pending]
  rintro ⟨next, step, _⟩
  simp [read, refused] at step

/-- Two sessions that read a byte alike stop alike behind it. -/
theorem stops_cons_congr {s' : Session σ} (pending : g.isDone s.memory = false)
    (pending' : g.isDone s'.memory = false) (same : g.read s b = g.read s' b) :
    g.Stops s (b :: bytes) last ↔ g.Stops s' (b :: bytes) last := by
  rw [stops_cons_iff pending, stops_cons_iff pending', same]

theorem stops_of_read_iff {next : Session σ} (pending : g.isDone s.memory = false)
    (step : g.read s b = .ok next) : g.Stops s (b :: bytes) last ↔ g.Stops next bytes last := by
  simp only [stops_cons_iff pending, step, Except.ok.injEq, exists_eq_left']

/-- A trace in front of some bytes may be left out. -/
theorem Reads.stops_append_iff {run : Bytes} {next : Session σ} (trace : g.Reads s run next) :
    g.Stops s (run ++ bytes) last ↔ g.Stops next bytes last := by
  simp only [Stops, trace.readAll_append]

section Scan

variable (loop : Bytes → Session σ) {cls : UInt8 → Bool}

/-- A phase that passes over the bytes of a class goes on behind the longest run of
them, be it at a byte that is not of the class or at the end of the bytes. -/
theorem stops_scan_iff (pending : ∀ run, g.isDone (loop run).memory = false)
    (pass : ∀ run b, cls b = true → g.read (loop run) b = .ok (loop (run ++ [b])))
    (seen : Bytes) :
    g.Stops (loop seen) bytes last ↔
      ∃ run back, bytes = run ++ back ∧ (∀ c ∈ run, cls c = true) ∧
        (∀ b ∈ back.head?, cls b = false) ∧ g.Stops (loop (seen ++ run)) back last := by
  constructor
  · intro stops
    have cut : bytes = bytes.takeWhile cls ++ bytes.dropWhile cls :=
      List.takeWhile_append_dropWhile.symm
    have all : ∀ c ∈ bytes.takeWhile cls, cls c = true := List.all_eq_true.mp List.all_takeWhile
    refine ⟨bytes.takeWhile cls, bytes.dropWhile cls, cut, all, fun b first => ?_, ?_⟩
    · have stop := List.head?_dropWhile_not cls bytes
      rw [Option.mem_def.mp first] at stop
      simpa using stop
    · rwa [← (reads_scan loop pending pass seen _ all).stops_append_iff, ← cut]
  · rintro ⟨run, back, rfl, all, _, stops⟩
    exact (reads_scan loop pending pass seen run all).stops_append_iff.mpr stops

end Scan

/-- Chunks are taken without failure exactly if reading the joined stream stops; all
that feeding does beside is to count. -/
theorem settle_feedAll_eq_ok_iff (unlimited : s.limit = none) {chunks : List Bytes} :
    settle (g.feedAll s chunks) = .ok last ↔
      ∃ stopped, g.Stops s chunks.flatten stopped ∧
        last = stopped.recount (s.consumed + (g.readAll s chunks.flatten).taken) := by
  rw [settle_feedAll unlimited, settle_feed unlimited]
  unfold Stops
  cases fault : (g.readAll s chunks.flatten).fault with
  | some _ => simp [fault]
  | none => simp [fault, eq_comm]

end Octets.Stream.Grammar
