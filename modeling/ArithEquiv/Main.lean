import ArithEquiv.Demo

/-! The program prints the demonstration. -/

def main : IO Unit := IO.print (ArithEquiv.Demo.output false)
