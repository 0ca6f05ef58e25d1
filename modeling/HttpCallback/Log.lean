import HttpCallback.Lib.Run
import HttpCallback.Response.Seen

/-!
# The log

`response_ok` reports the file that it has sent to `log_err`, which appends a line to the log of the
day. What a line says of a file is its name, and no name holds white space, so a log is read back
for what was reported, entry by entry and in order, whatever the clients asked for (`log_read`). The
logs lie in the directory that is served: a request for the name of a day is answered with its log
(`log_served`).
-/

namespace HttpCallback

open CString Format

/-- What `localtime` returns, as far as it is printed; `year` is `tm_year + 1900`. -/
structure Tm where
  year : Nat
  mon : Nat
  mday : Nat
  hour : Nat
  min : Nat
  sec : Nat
  deriving Repr, DecidableEq

/-- `/home/jackwu/Desktop/test/%d-%d-%d.log`. -/
def pathFormat : List (Item UInt8) :=
  [.lit (ascii "/home/jackwu/Desktop/test/"), .hole, .lit (ascii "-"), .hole, .lit (ascii "-"),
    .hole, .lit (ascii ".log")]

def logPath (lt : Tm) : Bytes := print pathFormat [decimal lt.year, decimal lt.mon, decimal lt.mday]

/-- `servername=%s&ip=127.0.0.1&time=%d-%d-%d %d:%d:%d&info=%s&fileortask=%s`. -/
def lineFormat : List (Item UInt8) :=
  [.lit (ascii "servername="), .hole, .lit (ascii "&ip=127.0.0.1&time="), .hole, .lit (ascii "-"),
    .hole, .lit (ascii "-"), .hole, .lit (ascii " "), .hole, .lit (ascii ":"), .hole,
    .lit (ascii ":"), .hole, .lit (ascii "&info="), .hole, .lit (ascii "&fileortask="), .hole]

/-- An entry of the log. -/
structure LogEntry where
  time : Tm
  flag : Bytes
  name : Bytes
  deriving Repr, DecidableEq

/-- The line of an entry, without the line end. -/
def LogEntry.line (e : LogEntry) : Bytes :=
  print lineFormat [ascii "01", decimal e.time.year, decimal e.time.mon, decimal e.time.mday,
    decimal e.time.hour, decimal e.time.min, decimal e.time.sec, e.flag, e.name]

/-- The contents of the files. -/
abbrev Files := Bytes → Bytes

/-- `logOut(flag, name)` at the time `lt`: the file is opened to append. -/
def logOut (flag name : Bytes) (lt : Tm) (files : Files) : Files :=
  Function.update files (logPath lt)
    (files (logPath lt) ++ ((LogEntry.mk lt flag name).line ++ [lf]))

/-- `log_err(flag, name)`. -/
def logErr (flag name : Bytes) (lt : Tm) (files : Files) : Files :=
  if strcasecmpEq flag (ascii "010") then logOut (ascii "010") name lt files
  else if strcasecmpEq flag (ascii "011") then logOut (ascii "011") name lt files
  else files

/-- `ferror(localFp)` behind the loop. -/
def ferror : List Fread → Bool
  | [] => false
  | .eof _ :: _ => false
  | .error _ :: _ => true
  | .data _ :: fs => ferror fs

/-- A request and what its answer meets: the file that is opened, the outcomes of the sends, and the
times at which an error of the file and the end are reported. -/
structure Visit where
  stale : Mem
  fs : FileSystem
  req : HttpRequest
  stSize : Int
  localFp : List Fread
  sends : List SendEv
  errorTime : Tm
  endTime : Tm

namespace Visit

/-- The reports of `response_ok`. -/
def report (v : Visit) (name : Bytes) (files : Files) : Files :=
  logErr (ascii "010") name v.endTime
    (if ferror v.localFp then logErr (ascii "011") name v.errorTime files else files)

/-- `http_module_handler_response`, none where `response_ok` does not return. -/
def step (files : Files) (v : Visit) : Option Files :=
  match (httpModuleHandlerResponse v.stale v.fs v.req).reply with
  | .responseOk pathName =>
    match (responseOk pathName v.stSize (some v.localFp) v.sends).fin with
    | .ret => some (v.report (fileName pathName) files)
    | _ => none
  | _ => some files

/-- The entries that a visit should leave. -/
def entries (v : Visit) : List LogEntry :=
  match (httpModuleHandlerResponse v.stale v.fs v.req).reply with
  | .responseOk pathName =>
    (if ferror v.localFp then [⟨v.errorTime, ascii "011", fileName pathName⟩] else []) ++
      [⟨v.endTime, ascii "010", fileName pathName⟩]
  | _ => []

end Visit

/-! ## Reading a log -/

def readEntry (line : Bytes) : Option LogEntry :=
  match scan lineFormat line with
  | some [_, year, mon, mday, hour, min, sec, flag, name] => do
    return ⟨⟨← readDecimal year, ← readDecimal mon, ← readDecimal mday, ← readDecimal hour,
      ← readDecimal min, ← readDecimal sec⟩, flag, name⟩
  | _ => none

def readLog (log : Bytes) : Option (List LogEntry) := do (← records lf log).mapM readEntry

theorem some_ne_of_mem_decimal {n : Nat} {c : UInt8} (hc : isDigit c = false) :
    ∀ b ∈ decimal n, some c ≠ some b := by
  rintro b hb heq
  cases heq
  rw [isDigit_of_mem_decimal hb] at hc
  cases hc

theorem readEntry_line (e : LogEntry) (h : (38 : UInt8) ∉ e.flag) : readEntry e.line = some e := by
  have hfits : Format.Fits lineFormat [ascii "01", decimal e.time.year, decimal e.time.mon,
      decimal e.time.mday, decimal e.time.hour, decimal e.time.min, decimal e.time.sec, e.flag,
      e.name] := by
    refine ⟨by decide +kernel, nofun, ?_⟩
    refine ⟨some_ne_of_mem_decimal (c := 45) rfl, nofun, ?_⟩
    refine ⟨some_ne_of_mem_decimal (c := 45) rfl, nofun, ?_⟩
    refine ⟨some_ne_of_mem_decimal (c := 32) rfl, nofun, ?_⟩
    refine ⟨some_ne_of_mem_decimal (c := 58) rfl, nofun, ?_⟩
    refine ⟨some_ne_of_mem_decimal (c := 58) rfl, nofun, ?_⟩
    refine ⟨some_ne_of_mem_decimal (c := 38) rfl, nofun, ?_⟩
    refine ⟨fun b hb heq => ?_, nofun, fun _ _ => nofun, fun _ => rfl, rfl⟩
    cases heq
    exact h hb
  rw [readEntry, LogEntry.line, scan_print hfits]
  simp [readDecimal_decimal]

/-- What is reported of a file whose name holds no white space. -/
structure LogEntry.Clean (e : LogEntry) : Prop where
  amp : (38 : UInt8) ∉ e.flag
  flag : lf ∉ e.flag
  name : lf ∉ e.name

theorem LogEntry.Clean.line {e : LogEntry} (h : e.Clean) : lf ∉ e.line := by
  intro hmem
  rcases mem_print hmem with ⟨item, hitem, hb⟩ | ⟨v, hv, hb⟩
  · have hlit : ∀ item ∈ lineFormat, lf ∉ item.text := by decide
    exact hlit item hitem hb
  · have hdecimal : ∀ n, lf ∉ decimal n := lf_not_mem_decimal
    simp only [List.mem_cons, List.not_mem_nil, or_false] at hv
    rcases hv with rfl | rfl | rfl | rfl | rfl | rfl | rfl | rfl | rfl
    · revert hb
      decide
    · exact hdecimal _ hb
    · exact hdecimal _ hb
    · exact hdecimal _ hb
    · exact hdecimal _ hb
    · exact hdecimal _ hb
    · exact hdecimal _ hb
    · exact h.flag hb
    · exact h.name hb

/-- The lines of entries. -/
def logText (es : List LogEntry) : Bytes := es.flatMap fun e => e.line ++ [lf]

theorem readLog_logText {es : List LogEntry} (h : ∀ e ∈ es, e.Clean) :
    readLog (logText es) = some es := by
  have hlines : ∀ l ∈ es.map LogEntry.line, lf ∉ l := by
    intro l hl
    obtain ⟨e, he, rfl⟩ := List.mem_map.1 hl
    exact (h e he).line
  have htext : logText es = (es.map LogEntry.line).flatMap (· ++ [lf]) := by
    rw [logText, List.flatMap_map]
  have hread : (es.map LogEntry.line).mapM readEntry = some es := by
    clear hlines htext
    induction es with
    | nil => rfl
    | cons e es ih =>
      obtain ⟨he, hrest⟩ := List.forall_mem_cons.1 h
      rw [List.map_cons, List.mapM_cons, readEntry_line e he.amp, ih hrest]
      rfl
  rw [readLog, htext, records_flatMap hlines]
  exact hread

/-! ## The log of a day -/

/-- The day of a time, which names its log. -/
def Tm.day (lt : Tm) : Nat × Nat × Nat := (lt.year, lt.mon, lt.mday)

theorem logPath_eq_iff {lt lt' : Tm} : logPath lt = logPath lt' ↔ lt.day = lt'.day := by
  have hscan : ∀ lt, scan pathFormat (logPath lt) =
      some [decimal lt.year, decimal lt.mon, decimal lt.mday] := by
    intro lt
    refine scan_print ⟨some_ne_of_mem_decimal (c := 45) rfl, nofun, ?_⟩
    refine ⟨some_ne_of_mem_decimal (c := 45) rfl, nofun, ?_⟩
    exact ⟨some_ne_of_mem_decimal (c := 46) rfl, nofun, rfl⟩
  unfold Tm.day
  constructor
  · intro h
    have heq := congrArg (scan pathFormat) h
    simp only [hscan, Option.some.injEq, List.cons.injEq, and_true] at heq
    rw [decimal_inj heq.1, decimal_inj heq.2.1, decimal_inj heq.2.2]
  · intro h
    simp only [Prod.mk.injEq] at h
    rw [logPath, logPath, h.1, h.2.1, h.2.2]

theorem logPath_last (lt : Tm) : (logPath lt).getLast? = some 103 := by
  have hend : (ascii ".log").getLast? = some 103 := by decide
  simp only [logPath, pathFormat, print, List.append_nil, List.getLast?_append, hend,
    Option.some_or]

/-- The logs hold the entries, each day's in its own, and no other file has changed. -/
structure Logged (files₀ files : Files) (es : List LogEntry) : Prop where
  logs : ∀ lt, files (logPath lt) = logText (es.filter fun e => e.time.day = lt.day)
  others : ∀ p, (∀ lt, p ≠ logPath lt) → files p = files₀ p

variable {files₀ files files' : Files} {es : List LogEntry}

theorem Logged.logOut (h : Logged files₀ files es) (flag name : Bytes) (lt : Tm) :
    Logged files₀ (logOut flag name lt files) (es ++ [⟨lt, flag, name⟩]) := by
  refine ⟨fun lt' => ?_, fun p hp => ?_⟩
  · rw [List.filter_append, logText, List.flatMap_append]
    by_cases hday : lt.day = lt'.day
    · rw [← logPath_eq_iff.2 hday, HttpCallback.logOut, Function.update_self, h.logs]
      simp [logText, hday]
    · rw [HttpCallback.logOut, Function.update_of_ne fun heq => hday (logPath_eq_iff.1 heq).symm,
        h.logs]
      simp [logText, hday]
  · rw [HttpCallback.logOut, Function.update_of_ne (hp lt), h.others p hp]

namespace Visit

theorem logErr_end (name : Bytes) (lt : Tm) (files : Files) :
    logErr (ascii "010") name lt files = logOut (ascii "010") name lt files :=
  if_pos (by decide)

theorem logErr_error (name : Bytes) (lt : Tm) (files : Files) :
    logErr (ascii "011") name lt files = logOut (ascii "011") name lt files := by
  unfold logErr
  rw [if_neg (by decide), if_pos (by decide)]

/-- A visit adds its entries. -/
theorem step_logged {v : Visit} (h : Logged files₀ files es) (hstep : step files v = some files') :
    Logged files₀ files' (es ++ v.entries) := by
  unfold step at hstep
  unfold entries
  rcases reply_cases v.stale v.fs v.req with ⟨path, hreply, -⟩ | hreply | hreply
  · rw [hreply] at hstep ⊢
    simp only at hstep ⊢
    split at hstep
    · cases hstep
      rw [report, logErr_end, logErr_error]
      split
      · rw [← List.append_assoc]
        exact (h.logOut _ _ _).logOut _ _ _
      · exact h.logOut _ _ _
    · cases hstep
  · rw [hreply] at hstep ⊢
    cases hstep
    rwa [List.append_nil]
  · rw [hreply] at hstep ⊢
    cases hstep
    rwa [List.append_nil]

theorem entries_clean (v : Visit) : ∀ e ∈ v.entries, e.Clean := by
  have hend : (38 : UInt8) ∉ ascii "010" ∧ lf ∉ ascii "010" := by decide
  have herror : (38 : UInt8) ∉ ascii "011" ∧ lf ∉ ascii "011" := by decide
  unfold entries
  rcases reply_cases v.stale v.fs v.req with ⟨path, hreply, hpath⟩ | hreply | hreply
  · have hname := lf_not_mem_fileName hpath
    rw [hreply]
    refine List.forall_mem_append.2 ⟨?_, List.forall_mem_singleton.2 ⟨hend.1, hend.2, hname⟩⟩
    split
    · exact List.forall_mem_singleton.2 ⟨herror.1, herror.2, hname⟩
    · exact List.forall_mem_nil _
  · rw [hreply]
    exact List.forall_mem_nil _
  · rw [hreply]
    exact List.forall_mem_nil _

theorem run_logged {visits : List Visit} (h : Logged files₀ files es)
    (hrun : Run.exec step files visits = some files') :
    Logged files₀ files' (es ++ visits.flatMap entries) := by
  induction visits generalizing files es with
  | nil =>
    cases hrun
    rwa [List.flatMap_nil, List.append_nil]
  | cons v visits ih =>
    obtain ⟨t, ht, hrest⟩ := Run.exec_cons hrun
    rw [List.flatMap_cons, ← List.append_assoc]
    exact ih (step_logged h ht) hrest

theorem start_logged (hnew : ∀ lt, files (logPath lt) = []) : Logged files files [] :=
  ⟨hnew, fun _ _ => rfl⟩

/-- The log of each day, behind a run that began without logs. -/
theorem readLog_run {visits : List Visit} (hnew : ∀ lt, files (logPath lt) = [])
    (hrun : Run.exec step files visits = some files') (lt : Tm) :
    readLog (files' (logPath lt)) =
      some ((visits.flatMap entries).filter fun e => e.time.day = lt.day) := by
  rw [(run_logged (start_logged hnew) hrun).logs lt]
  refine readLog_logText fun e he => ?_
  obtain ⟨v, -, hv⟩ := List.mem_flatMap.1 (List.mem_filter.1 he).1
  exact entries_clean v e hv

/-- **The logs say what was sent, and nothing else.** After any sequence of answers that have come
to their end, from a time without logs on: what is read of each day's log are the reports of that
day, in their order, one for each file sent and one more, before it, where reading the file had met
an error. No other file has changed. -/
theorem log_read (files files' : Files) (visits : List Visit)
    (hnew : ∀ lt, files (logPath lt) = []) (hrun : Run.exec step files visits = some files') :
    (∀ lt, readLog (files' (logPath lt)) =
        some ((visits.flatMap entries).filter fun e => e.time.day = lt.day)) ∧
      ∀ p, (∀ lt, p ≠ logPath lt) → files' p = files p :=
  ⟨readLog_run hnew hrun, (run_logged (start_logged hnew) hrun).others⟩

/-- `GET /a` on the fifth of a January, answered with a file of two bytes. -/
def sample : Visit where
  stale _ := 32
  fs _ := some .other
  req := ⟨[71, 69, 84], [47, 97], [72], []⟩
  stSize := 2
  localFp := [.eof [97, 98]]
  sends := List.replicate 6 (.sent 99)
  errorTime := ⟨2024, 0, 5, 10, 11, 12⟩
  endTime := ⟨2024, 0, 5, 10, 11, 12⟩

theorem log_read_one : ∃ files', Run.exec step (fun _ => []) [sample] = some files' ∧
    readLog (files' (logPath sample.endTime)) =
      some (([sample].flatMap entries).filter fun e => e.time.day = sample.endTime.day) := by
  have hends : (Run.exec step (fun _ => []) [sample]).isSome = true := by decide +kernel
  obtain ⟨files', hrun⟩ := Option.isSome_iff_exists.1 hends
  exact ⟨files', hrun, (log_read _ files' [sample] (fun _ => rfl) hrun).1 _⟩

/-- **The logs are served.** After such a sequence a plain request for the path of a day's log, the
copy of whose url meets white space in bounds, is answered with the log, inside the arrays: the
client reads in the body who has been sent what on that day. -/
theorem log_served (files files' : Files) (visits : List Visit)
    (hnew : ∀ lt, files (logPath lt) = []) (hrun : Run.exec step files visits = some files')
    {req : HttpRequest} (hplain : Plain req) (hserved : Served req.method) (lt : Tm)
    (hurl : root ++ req.url = logPath lt) {stale : Mem} (hstops : Stops stale req.line)
    (stack : Mem) (fs : FileSystem) (hfs : fs (logPath lt) = some .other) :
    (httpModuleHandlerResponse stale fs req).InBounds ∧
      ∃ s, see (text (answerOps stale stack fs files' req)) = some s ∧ s.Complete ∧
        readLog s.body = some ((visits.flatMap entries).filter fun e => e.time.day = lt.day) := by
  have hopen : openPath req.url = logPath lt := by
    unfold openPath
    simp only [hurl]
    exact if_neg (by rw [logPath_last]; decide)
  have hreply := reply_file stale hplain hserved (hopen.symm ▸ hfs)
  rw [hopen] at hreply
  refine ⟨hplain.inBounds hstops fs, _, see_text stale stack fs files' req, ?_, ?_⟩
  · rw [hreply]
    exact (complete_iff files' (List.prefix_refl _)).2 ⟨⟨_, rfl⟩, rfl⟩
  · rw [hreply]
    exact readLog_run hnew hrun lt

/-- `GET /2024-0-5.log`. -/
theorem log_served_one : ∃ files' s, Run.exec step (fun _ => []) [sample] = some files' ∧
    see (text (answerOps (fun _ => 32) (fun _ => 0) (fun _ => some .other) files'
      ⟨[71, 69, 84], [47, 50, 48, 50, 52, 45, 48, 45, 53, 46, 108, 111, 103], [72], []⟩)) =
        some s ∧
      readLog s.body =
        some (([sample].flatMap entries).filter fun e => e.time.day = sample.endTime.day) := by
  have hends : (Run.exec step (fun _ => []) [sample]).isSome = true := by decide +kernel
  obtain ⟨files', hrun⟩ := Option.isSome_iff_exists.1 hends
  have hplain : Plain
      ⟨[71, 69, 84], [47, 50, 48, 50, 52, 45, 48, 45, 53, 46, 108, 111, 103], [72], []⟩ :=
    ⟨by simp [isspace], by decide, by decide, by decide, by simp [isspace], by decide, by decide,
      by decide⟩
  have hstops : Stops (fun _ => 32) (HttpRequest.line
      ⟨[71, 69, 84], [47, 50, 48, 50, 52, 45, 48, 45, 53, 46, 108, 111, 103], [72], []⟩) :=
    ⟨18, by decide, by decide, by decide, by decide⟩
  obtain ⟨-, s, hs, -, hread⟩ := log_served _ files' [sample] (fun _ => rfl) hrun hplain (by decide)
    sample.endTime (by decide) hstops (fun _ => 0) (fun _ => some .other) rfl
  exact ⟨files', s, hrun, hs, hread⟩

end Visit

end HttpCallback
