import Adventure.Linenoise
import Adventure.Repl

namespace Adventure

-- The completion callback of the commands. There is no string to add for NULL.
def completion (cmds : Trie) (buf : CStr) : Option (List CStr) := (trieGetKeys cmds buf []).mapM id

-- The loop of repl, over the bytes of the input. `frames` is what the calls to linenoise find, one by one.
def replLoop (env : ReplEnv) (term : Terminal) (prompt : CStr) :
    List LineEnv → LineHistory → List UInt8 → ReplState → Option (ReplState × LineHistory × List ReplOut)
  | [], _, _, _ => none
  | frame :: frames, h, input, s => do
      let cmds ← trieAddAll replAdds trieCreate
      let callback := completion cmds
      let (line, h, input) ← linenoise { frame with callback } term prompt h input
      match line with
      | none => return (s, h, [])
      | some line =>
          if line = [] then replLoop env term prompt frames h input s
          else if replWantsExit line then return (s, h, [])
          else do
            let (_, h) := linenoiseHistoryAdd h line
            let (code, s, out) ← replRouteCmd env line s
            let (s, h, outs) ← replLoop env term prompt frames h input s
            return (s, h, out ++ (if code = -1 then [.unknown (cutLine line)] else []) ++ outs)

end Adventure
