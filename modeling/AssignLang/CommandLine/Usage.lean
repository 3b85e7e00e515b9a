import AssignLang.Text.Basic

namespace AssignLang.CommandLine

def usage : Text :=
  ("usage: translate [-h] [-f FILES] [-o OUTPUT] [--tokens] [--run] [--debug]\n" ++
    "                 [programs ...]\n").toList

def help : Text :=
  usage ++
    ("\nEvaluate assignments and translate them into a C program. All programs share\n" ++
      "their variables.\n" ++
      "\npositional arguments:\n" ++
      "  programs              Programs of a single assignment, e.g. 'x = 1 + 2;'\n" ++
      "\noptions:\n" ++
      "  -h, --help            show this help message and exit\n" ++
      "  -f FILES, --file FILES\n" ++
      "                        File with any number of assignments, translated after\n" ++
      "                        the programs\n" ++
      "  -o OUTPUT, --output OUTPUT\n" ++
      "                        Write the C program to this file\n" ++
      "  --tokens              Only print the tokens of each program\n" ++
      "  --run                 Compile and run the C program with `cc`\n" ++
      "  --debug               Trace every translation step\n").toList

def refusal (message : Text) : Text := usage ++ "translate: error: ".toList ++ message ++ ['\n']

end AssignLang.CommandLine
